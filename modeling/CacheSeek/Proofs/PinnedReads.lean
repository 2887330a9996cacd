import CacheSeek.Proofs.StoredBlobs
import CacheSeek.Prefix.Steps

namespace CacheSeek.Proofs.PinnedReads
open CacheSeek.Lib CacheSeek.Prefix CacheSeek.Prefix.NamespaceForest CacheSeek.Stores
open CacheSeek.Proofs.StoredBlobs
open CacheSeek.Proofs.ForestMap (idleWindow)

variable {P L ω : Type} {cfg : WorldKVConfig} {f g : NamespaceForest} {s : InMemoryTier P L} {count : Nat}

/-- References count the unfinished calls, and what these read is there. -/
structure Held (count : Nat) (m : ManagerState (InMemoryTier P L) ω) : Prop where
  sound : Sound count m.forest m.store
  refs : ∀ {n}, n < m.forest.nodes.size → (m.forest.node n).refCount = m.holders n
  paths : ∀ {c}, c ∈ m.calls → c.unfinished = true → c.path.Pairwise (· < ·) ∧
    ∀ n ∈ c.path, n < m.forest.nodes.size ∧ (m.forest.node n).blob ≠ none
  layers : ∀ {c k}, c ∈ m.calls → c.pc = .layer k → c.nLayers = count

variable {m m' : ManagerState (InMemoryTier P L) ω} {c : MaterializeCall ω} {i : Nat}

/-- A call under way counts for each chunk of its path. -/
theorem holders_pos (hc : c ∈ m.calls) (hu : c.unfinished = true) {n : NodeId} (hn : n ∈ c.path) :
    0 < m.holders n := by
  refine List.countP_pos_iff.mpr ⟨c, hc, ?_⟩
  rw [hu, Bool.true_and, decide_eq_true_eq]
  exact hn

/-- A change that keeps references and blobs in use keeps the calls going. -/
theorem Held.keeps (h : Held count m) {g : NamespaceForest} {s' : InMemoryTier P L} (hg : Sound count g s')
    (hk : Keeps m.forest g) : Held count { m with forest := g, store := s' } := by
  refine ⟨hg, fun {n} hn => ?_, fun hc hu => ⟨(h.paths hc hu).1, fun n hnp => ?_⟩, h.layers⟩
  · by_cases hold : n < m.forest.nodes.size
    · exact (hk.refs hold).trans (h.refs hold)
    · have hold := Nat.not_lt.mp hold
      rw [hk.fresh hold hn]
      have hzero : m.holders n = 0 := by
        refine List.countP_eq_zero.mpr fun c hc => ?_
        rw [Bool.and_eq_true, decide_eq_true_eq]
        rintro ⟨hu, hmem⟩
        exact absurd ((h.paths hc hu).2 n hmem).1 (Nat.not_lt_of_le hold)
      exact (congrArg Nat.cast hzero).symm
  · obtain ⟨hlt, hb⟩ := (h.paths hc hu).2 n hnp
    have hpos : 0 < (m.forest.node n).refCount := by
      rw [h.refs hlt]
      exact Int.natCast_pos.mpr (holders_pos hc hu hnp)
    exact ⟨Nat.lt_of_lt_of_le hlt hk.size, hk.blob hlt hpos hb⟩

/-- A path names no chunk twice. -/
theorem count_sorted {path : List NodeId} (h : path.Pairwise (· < ·)) (n : NodeId) :
    path.count n = if n ∈ path then 1 else 0 := by
  have hnodup : path.Nodup := h.imp fun hlt => Nat.ne_of_lt hlt
  split
  · rename_i hn
    exact List.count_eq_one_of_mem hnodup hn
  · rename_i hn
    exact List.count_eq_zero.mpr hn

/-- The start of a call takes one reference for each node of its path. -/
theorem Held.start (h : Held count m) (cfg : WorldKVConfig) {n : NodeId} (hn : n < m.forest.nodes.size) (w : ω) :
    Held count (m.start cfg n w) := by
  obtain ⟨hsort, hlt⟩ := windowPath_sorted cfg h.sound.shape hn
  unfold ManagerState.start
  generalize windowPath cfg m.forest n = path at *
  dsimp only
  split
  · refine ⟨h.sound, fun hx => ?_, fun hc hu => ?_, fun hc hpc => ?_⟩
    · rw [h.refs hx]
      simp [ManagerState.holders, MaterializeCall.unfinished]
    · rcases List.mem_append.mp hc with hc | hc
      · exact h.paths hc hu
      · rw [List.mem_singleton.mp hc] at hu
        cases hu
    · rcases List.mem_append.mp hc with hc | hc
      · exact h.layers hc hpc
      · rw [List.mem_singleton.mp hc] at hpc
        cases hpc
  · rename_i hready
    rw [Bool.or_eq_true, not_or, Bool.not_eq_true, Bool.not_eq_true, List.isEmpty_eq_false_iff] at hready
    obtain ⟨hne, hready⟩ := hready
    have hkv : ∀ x ∈ path, m.forest.hasKv x = true := by
      intro x hx
      have := List.any_eq_false.mp hready x hx
      simpa using this
    have hs := foldl_sameTrie (addRef_sameTrie 1) path m.forest
    have hnode := foldl_addRef_node 1 path m.forest
    have hh := foldl_modify_handles (u := addRef 1) (fun _ _ => rfl) path m.forest
    refine ⟨h.sound.refs 1 path, fun {x} hx => ?_, fun hc hu => ?_, fun hc hpc => ?_⟩
    · dsimp only at hx ⊢
      rw [hs.size] at hx
      rw [hnode, h.refs hx, count_sorted hsort]
      simp only [ManagerState.holders, List.countP_append, List.countP_singleton, MaterializeCall.unfinished,
        Bool.true_and, decide_eq_true_eq]
      split
      · omega
      · omega
    · rcases List.mem_append.mp hc with hc | hc
      · refine ⟨(h.paths hc hu).1, fun x hx => ?_⟩
        rw [hs.size, hnode]
        exact (h.paths hc hu).2 x hx
      · rw [List.mem_singleton.mp hc]
        refine ⟨hsort, fun x hx => ?_⟩
        rw [hs.size, hnode]
        obtain ⟨b, hb, _⟩ := hasKv_iff.mp (hkv x hx)
        exact ⟨hlt x hx, by rw [hb]; exact Option.some_ne_none b⟩
    · rcases List.mem_append.mp hc with hc | hc
      · exact h.layers hc hpc
      · rw [List.mem_singleton.mp hc]
        obtain ⟨l, x, hl⟩ := List.eq_nil_or_concat path |>.resolve_left hne
        have hx : x ∈ path := by simp [hl]
        obtain ⟨b, hb, _⟩ := hasKv_iff.mp (hkv x hx)
        have hlast : path.getLast? = some x := by rw [hl, List.concat_eq_append, List.getLast?_concat]
        simp only [pathLayers, hlast, hnode, hb, Option.getD_some, handle, hh]
        have := (h.sound.stored (hlt x hx) hb).layers
        unfold handle at this
        rw [this, Int.toNat_natCast]

/-- The end of a call gives its references back. -/
theorem Held.close (h : Held count m) (hi : m.calls[i]? = some c) (hu : c.unfinished = true)
    (c' : MaterializeCall ω) (hpath : c'.path = c.path) (pc : MaterializePc) (hpc : ∀ k, pc ≠ .layer k) :
    Held count (m.close i c' pc) := by
  have hmem := List.mem_of_getElem? hi
  obtain ⟨hil, hget⟩ := List.getElem?_eq_some_iff.mp hi
  obtain ⟨hsort, hlt⟩ := h.paths hmem hu
  have hs := foldl_sameTrie (addRef_sameTrie (-1)) c'.path m.forest
  have hnode := foldl_addRef_node (-1) c'.path m.forest
  have hended : ({ c' with pc } : MaterializeCall ω).unfinished = false := by
    cases pc with
    | layer k => exact absurd rfl (hpc k)
    | returned ok => rfl
    | raised e => rfl
  have hcases : ∀ {x}, x ∈ m.calls.set i { c' with pc } → x.unfinished = true → x ∈ m.calls := by
    intro x hx hux
    rcases List.mem_or_eq_of_mem_set hx with hx | rfl
    · exact hx
    · rw [hended] at hux
      cases hux
  unfold ManagerState.close
  refine ⟨h.sound.refs (-1) c'.path, fun {n} hn => ?_, fun hc hux => ?_, fun {x k} hc hk => ?_⟩
  · dsimp only at hn ⊢
    rw [hs.size] at hn
    have hcount : c'.path.count n = if n ∈ c.path then 1 else 0 := by
      rw [hpath]
      exact count_sorted hsort n
    rw [hnode, h.refs hn, hcount]
    simp only [ManagerState.holders]
    rw [List.countP_set hil, hget, hended, hu]
    simp only [Bool.true_and, Bool.false_and, decide_eq_true_eq, Bool.false_eq_true, if_false, Nat.add_zero]
    split
    · rename_i hn
      have : 0 < m.holders n := holders_pos hmem hu hn
      simp only [ManagerState.holders] at this
      omega
    · omega
  · have := h.paths (hcases hc hux) hux
    refine ⟨this.1, fun n hn => ?_⟩
    rw [hs.size, hnode]
    exact this.2 n hn
  · have hux : x.unfinished = true := by
      unfold MaterializeCall.unfinished
      rw [hk]
    exact h.layers (hcases hc hux) hk

/-- Touching the nodes of a path changes nothing that calls rely on. -/
theorem Held.touch (h : Held count m) (now : Rat) (path : List NodeId) :
    Held count { m with forest := path.foldl (Prefix.touch now) m.forest } := by
  have hs := foldl_sameTrie (touch_sameTrie now) path m.forest
  have hnode := foldl_touch_node now path m.forest
  refine ⟨h.sound.touched now path, fun {n} hn => ?_, fun hc hu => ⟨(h.paths hc hu).1, fun n hn => ?_⟩, h.layers⟩
  · dsimp only at hn ⊢
    rw [hs.size] at hn
    obtain ⟨t, ht⟩ := hnode n
    rw [ht]
    exact h.refs hn
  · obtain ⟨t, ht⟩ := hnode n
    rw [hs.size, ht]
    exact (h.paths hc hu).2 n hn

/-- A turn of the loop leaves the path and the references. -/
theorem Held.turn (h : Held count m) (hi : m.calls[i]? = some c) (hu : c.unfinished = true) {k : Nat} (w : ω) :
    Held count { m with calls := m.calls.set i { c with window := w, pc := .layer k } } := by
  have hmem := List.mem_of_getElem? hi
  obtain ⟨hil, hget⟩ := List.getElem?_eq_some_iff.mp hi
  obtain ⟨j, hj⟩ := MaterializeCall.unfinished_iff.mp hu
  refine ⟨h.sound, fun {n} hn => ?_, fun hc hux => ?_, fun hc hk => ?_⟩
  · rw [h.refs hn]
    have hgo : ({ c with window := w, pc := .layer k } : MaterializeCall ω).unfinished = true := rfl
    simp only [ManagerState.holders]
    rw [List.countP_set hil, hget, hu, hgo]
    simp only [Bool.true_and, decide_eq_true_eq]
    split
    · rename_i hn
      have : 0 < m.holders n := holders_pos hmem hu hn
      simp only [ManagerState.holders] at this
      omega
    · omega
  · rcases List.mem_or_eq_of_mem_set hc with hc | rfl
    · exact h.paths hc hux
    · have := h.paths hmem hu
      exact this
  · rcases List.mem_or_eq_of_mem_set hc with hc | rfl
    · exact h.layers hc hk
    · have := h.layers hmem hj
      exact this

theorem getLayer_stored {n : NodeId} {b : HandleId} (h : Stored count f s n b) {k : Nat} (hk : k < count) :
    ∃ p, (inMemoryTierStore P L).getLayer s (f.handle b) k = (.ok p, s) := by
  obtain ⟨payload, hpay, hlen⟩ := h.payload
  have hk : k < payload.length := hlen ▸ hk
  refine ⟨payload[k], ?_⟩
  simp only [inMemoryTierStore, h.locator, hpay, List.getElem?_eq_getElem hk]

/-- Reading a layer of nodes with blobs succeeds. -/
theorem readLayer_stored (h : Sound count f s) {k : Nat} (hk : k < count) {path : List NodeId}
    (hpath : ∀ n ∈ path, n < f.nodes.size ∧ (f.node n).blob ≠ none) :
    ∃ blobs, readLayer (inMemoryTierStore P L) f k s path = (.ok blobs, s) := by
  induction path with
  | nil => exact ⟨[], rfl⟩
  | cons n path ih =>
    obtain ⟨blobs, hrest⟩ := ih fun x hx => hpath x (List.mem_cons_of_mem n hx)
    obtain ⟨hlt, hb⟩ := hpath n List.mem_cons_self
    obtain ⟨b, hb⟩ := Option.ne_none_iff_exists'.mp hb
    obtain ⟨p, hp⟩ := getLayer_stored (h.stored hlt hb) hk
    refine ⟨((f.node n).depth, p) :: blobs, ?_⟩
    simp only [readLayer, hb, Option.getD_some, hp, hrest]

/-- A seeding step reads only chunks that are held. -/
theorem Held.seed (h : Held count m) (W : RollingWindow ω P) (hi : m.calls[i]? = some c) {k : Nat}
    (hpc : c.pc = .layer k) (hk : k < c.nLayers) :
    Held count (m.seed (inMemoryTierStore P L) W i c k) := by
  have hmem := List.mem_of_getElem? hi
  have hu := MaterializeCall.unfinished_iff.mpr ⟨k, hpc⟩
  rw [h.layers hmem hpc] at hk
  obtain ⟨blobs, hread⟩ := readLayer_stored h.sound hk (h.paths hmem hu).2
  unfold ManagerState.seed
  rw [hread]
  dsimp only
  split
  · rename_i exc w _
    exact h.close hi hu { c with window := w } rfl (.raised exc) fun _ hk => nomatch hk
  · exact h.turn hi hu _

theorem Held.step (h : Held count m) {W : RollingWindow ω P} {e : ManagerEvent P L ω}
    (he : m.step (inMemoryTierStore P L) W cfg count e = some m') : Held count m' := by
  cases ManagerState.step_cases he with
  | create r c hfree =>
    obtain ⟨hs, hk⟩ := create_sound h.sound c hfree
    exact h.keeps hs hk
  | ingest a hn hfree hlen hlayers =>
    obtain ⟨hs, hk⟩ := ingest_sound cfg h.sound hn hfree hlen hlayers
    exact h.keeps hs hk
  | evict n hn =>
    obtain ⟨hs, hk⟩ := evict_sound h.sound hn
    exact h.keeps hs hk
  | start n w hn => exact h.start cfg hn w
  | seed i c k hi hpc hk => exact h.seed W hi hpc hk
  | raise i exc c k hi hpc =>
    have hu := MaterializeCall.unfinished_iff.mpr ⟨k, hpc⟩
    exact h.close hi hu c rfl (.raised exc) fun _ hk => nomatch hk
  | finish i now c k hi hpc _ =>
    have hu := MaterializeCall.unfinished_iff.mpr ⟨k, hpc⟩
    exact (h.touch now c.path).close hi hu
      { c with window := W.setResumeDepth c.window (m.forest.node c.node).depth } rfl (.returned true)
      fun _ hk => nomatch hk

/-- The layer loop of a call that nothing interrupts. -/
theorem run_seedLayers {σ : Type} {S : KVTierStore σ P L} {W : RollingWindow ω P} (cfg : WorldKVConfig)
    (count : Nat) (calls : List (MaterializeCall ω)) (c : MaterializeCall ω) {r k : Nat} {st st' : σ} {w w' : ω}
    (hk : k + r = c.nLayers) (hpc : c.pc = .layer k) (hw : c.window = w)
    (h : seedLayers S W f c.path (f.node c.node).depth (List.range' k r) st w = (.ok (), st', w')) :
    run (ManagerState.step S W cfg count) ⟨f, st, calls ++ [c]⟩ (List.replicate r (.seed calls.length)) =
      some ⟨f, st', calls ++ [{ c with window := w', pc := .layer c.nLayers }]⟩ := by
  induction r generalizing k st w c with
  | zero =>
    cases h
    obtain ⟨node, path, nLayers, window, pc⟩ := c
    dsimp only at hk hpc hw
    rw [Nat.add_zero] at hk
    rw [← hk, ← hpc, ← hw]
    rfl
  | succ r ih =>
    rw [List.range'_succ, seedLayers] at h
    generalize hread : readLayer S f k st c.path = x at h
    obtain ⟨exc | blobs, st1⟩ := x
    · cases h
    · dsimp only at h
      generalize hseed : W.seedLayer w k blobs (f.node c.node).depth = y at h
      obtain ⟨exc | _, w1⟩ := y
      · cases h
      · dsimp only at h
        have hstep : ManagerState.step S W cfg count ⟨f, st, calls ++ [c]⟩ (.seed calls.length) =
            some ⟨f, st1, calls ++ [{ c with window := w1, pc := .layer (k + 1) }]⟩ := by
          have hlt : k < c.nLayers := by omega
          simp only [ManagerState.step, List.getElem?_concat_length, hpc, hlt, if_true, ManagerState.seed, hread,
            hw, hseed, List.set_append_right _ _ (Nat.le_refl _), Nat.sub_self, List.set_cons_zero]
        rw [List.replicate_succ]
        refine run_cons.mpr ⟨_, hstep, ?_⟩
        have hrest := ih { c with window := w1, pc := .layer (k + 1) } (by dsimp only; omega) rfl rfl h
        exact hrest

/-- Without interruption, the events of a call are `materialize`. -/
theorem run_materialize {σ : Type} {S : KVTierStore σ P L} {W : RollingWindow ω P} {count : Nat} {st st' : σ}
    {calls : List (MaterializeCall ω)} {n : NodeId} {w w' : ω} {now : Rat} (hn : n < f.nodes.size)
    (h : materialize S W cfg now f st n w = (.ok true, g, st', w')) :
    let path := windowPath cfg f n
    let layers := pathLayers (path.foldl (addRef 1) f) path
    run (ManagerState.step S W cfg count) ⟨f, st, calls⟩
        (.start n w :: (List.replicate layers (.seed calls.length) ++ [.finish calls.length now])) =
      some ⟨g, st', calls ++ [⟨n, path, layers, w', .returned true⟩]⟩ := by
  intro path layers
  unfold materialize at h
  extract_lets p at h
  split at h
  · cases h
  · rename_i hready
    dsimp only at h
    generalize hseeds : seedLayers S W (path.foldl (addRef 1) f) path ((path.foldl (addRef 1) f).node n).depth
      (List.range layers) st w = x at h
    obtain ⟨exc | _, st1, w1⟩ := x
    · cases h
    · cases h
      have hstart : ManagerState.step S W cfg count ⟨f, st, calls⟩ (.start n w) =
          some ⟨path.foldl (addRef 1) f, st, calls ++ [⟨n, path, layers, w, .layer 0⟩]⟩ := by
        simp only [ManagerState.step, hn, if_true, ManagerState.start]
        rw [if_neg hready]
      rw [List.range_eq_range'] at hseeds
      have hloop := run_seedLayers cfg count calls ⟨n, path, layers, w, .layer 0⟩ (Nat.zero_add layers) rfl rfl
        hseeds
      refine run_cons.mpr ⟨_, hstart, run_append.mpr ⟨_, hloop, ?_⟩⟩
      simp only [run_cons, ManagerState.step, List.getElem?_concat_length, Nat.le_refl, if_true, run_nil,
        ManagerState.finish, ManagerState.close, List.set_append_right _ _ (Nat.le_refl _), Nat.sub_self,
        List.set_cons_zero, Option.some.injEq, exists_eq_left']
      rfl

inductive Turn (m m' : ManagerState (InMemoryTier P L) ω) : Prop
  | idle (hc : m'.calls = m.calls) (h : Untouched [] m.forest m'.forest)
  | started (c : MaterializeCall ω) (hc : m'.calls = m.calls ++ [c]) (h : Untouched [] m.forest m'.forest)
  | went (i : Nat) (c c' : MaterializeCall ω) (hi : m.calls[i]? = some c) (hu : c.unfinished = true)
      (hc : m'.calls = m.calls.set i c') (h : Untouched [] m.forest m'.forest)
  | finished (i : Nat) (c c' : MaterializeCall ω) (hi : m.calls[i]? = some c) (hu : c.unfinished = true)
      (hc : m'.calls = m.calls.set i c') (hpath : c'.path = c.path) (hpc : c'.pc = .returned true)
      (h : Untouched c.path m.forest m'.forest)

theorem step_turn (h : Held count m) {W : RollingWindow ω P} {e : ManagerEvent P L ω}
    (he : m.step (inMemoryTierStore P L) W cfg count e = some m') : Turn m m' := by
  cases ManagerState.step_cases he with
  | create r c hfree => exact .idle rfl (create_sound h.sound c hfree).2.untouched
  | ingest a hn hfree hlen hlayers =>
    exact .idle rfl (ingest_sound cfg h.sound hn hfree hlen hlayers).2.untouched
  | evict n hn => exact .idle rfl (evict_sound h.sound hn).2.untouched
  | start n w _ =>
    unfold ManagerState.start
    dsimp only
    split
    · exact .started _ rfl (Keeps.refl m.forest).untouched
    · exact .started _ rfl (refs_untouched 1 _ m.forest)
  | seed i c k hi hpc _ =>
    have hu := MaterializeCall.unfinished_iff.mpr ⟨k, hpc⟩
    unfold ManagerState.seed
    split
    · exact .went i c _ hi hu rfl (refs_untouched (-1) c.path m.forest)
    · split
      · exact .went i c _ hi hu rfl (refs_untouched (-1) c.path m.forest)
      · exact .went i c _ hi hu rfl (Keeps.refl m.forest).untouched
  | raise i exc c k hi hpc =>
    have hu := MaterializeCall.unfinished_iff.mpr ⟨k, hpc⟩
    exact .went i c _ hi hu rfl (refs_untouched (-1) c.path m.forest)
  | finish i now c k hi hpc _ =>
    have hu := MaterializeCall.unfinished_iff.mpr ⟨k, hpc⟩
    have h1 := touch_untouched now c.path m.forest
    have h2 := refs_untouched (-1) c.path (c.path.foldl (touch now) m.forest)
    refine .finished i c _ hi hu rfl rfl rfl ⟨Nat.le_trans h1.size h2.size, fun hn hnp => ?_⟩
    exact (h2.access (Nat.lt_of_lt_of_le hn h1.size) List.not_mem_nil).trans (h1.access hn hnp)

theorem Turn.size (h : Turn m m') : m.forest.nodes.size ≤ m'.forest.nodes.size := by
  cases h with
  | idle _ h => exact h.size
  | started _ _ h => exact h.size
  | went _ _ _ _ _ _ h => exact h.size
  | finished _ _ _ _ _ _ _ _ h => exact h.size

/-- A call that has ended stays as it is. -/
theorem Turn.ended (h : Turn m m') (hi : m.calls[i]? = some c) (hc : c.unfinished = false) :
    m'.calls[i]? = some c := by
  have hset : ∀ {j : Nat} {d d' : MaterializeCall ω}, m.calls[j]? = some d → d.unfinished = true →
      (m.calls.set j d')[i]? = some c := by
    intro j d d' hj hd
    have hne : j ≠ i := by
      rintro rfl
      rw [hi] at hj
      cases hj
      rw [hc] at hd
      cases hd
    rw [List.getElem?_set_ne hne, hi]
  cases h with
  | idle hcalls _ => rw [hcalls, hi]
  | started d hcalls _ =>
    rw [hcalls, List.getElem?_append_left (List.getElem?_eq_some_iff.mp hi).1, hi]
  | went j d d' hj hd hcalls _ => rw [hcalls, hset hj hd]
  | finished j d d' hj hd hcalls _ _ _ => rw [hcalls, hset hj hd]

/-- Call `i` has completed, and the node is on its path. -/
def CompletedOver (m : ManagerState (InMemoryTier P L) ω) (i : Nat) (n : NodeId) : Prop :=
  ∃ c, m.calls[i]? = some c ∧ c.pc = .returned true ∧ n ∈ c.path

theorem Turn.completedOver (h : Turn m m') {n : NodeId} (hc : CompletedOver m i n) : CompletedOver m' i n := by
  obtain ⟨c, hi, hpc, hn⟩ := hc
  refine ⟨c, h.ended hi ?_, hpc, hn⟩
  unfold MaterializeCall.unfinished
  rw [hpc]

/-- Access times move only when a call completes. -/
theorem Turn.access (h : Turn m m') {n : NodeId} (hn : n < m.forest.nodes.size)
    (hne : (m'.forest.node n).lastAccess ≠ (m.forest.node n).lastAccess) :
    ∃ i, CompletedOver m' i n ∧ ¬ CompletedOver m i n := by
  cases h with
  | idle _ h => exact absurd (h.access hn List.not_mem_nil) hne
  | started _ _ h => exact absurd (h.access hn List.not_mem_nil) hne
  | went _ _ _ _ _ _ h => exact absurd (h.access hn List.not_mem_nil) hne
  | finished i c c' hi hu hc hpath hpc h =>
    have hmem : n ∈ c.path := by
      by_contra hno
      exact hne (h.access hn hno)
    refine ⟨i, ⟨c', ?_, hpc, hpath ▸ hmem⟩, ?_⟩
    · rw [hc, List.getElem?_set_self (List.getElem?_eq_some_iff.mp hi).1]
    · rintro ⟨d, hd, hdpc, _⟩
      rw [hi] at hd
      cases hd
      unfold MaterializeCall.unfinished at hu
      rw [hdpc] at hu
      cases hu

section
variable {W : RollingWindow ω P}

/-- Along a run, a node's access time changes only if a call over it completes. -/
theorem run_access (h : Held count m) {es : List (ManagerEvent P L ω)}
    (hr : run (ManagerState.step (inMemoryTierStore P L) W cfg count) m es = some m') {n : NodeId}
    (hn : n < m.forest.nodes.size) :
    (∀ i, CompletedOver m i n → CompletedOver m' i n) ∧
      ((m'.forest.node n).lastAccess ≠ (m.forest.node n).lastAccess →
        ∃ i, CompletedOver m' i n ∧ ¬ CompletedOver m i n) := by
  induction es generalizing m with
  | nil =>
    cases hr
    exact ⟨fun _ hc => hc, fun hne => absurd rfl hne⟩
  | cons e es ih =>
    obtain ⟨m1, he, hr⟩ := run_cons.mp hr
    have hturn := step_turn h he
    obtain ⟨hstay, haccess⟩ := ih (h.step he) hr (Nat.lt_of_lt_of_le hn hturn.size)
    refine ⟨fun i hc => hstay i (hturn.completedOver hc), fun hne => ?_⟩
    by_cases h1 : (m1.forest.node n).lastAccess = (m.forest.node n).lastAccess
    · rw [← h1] at hne
      obtain ⟨i, hc, hno⟩ := haccess hne
      exact ⟨i, hc, fun hold => hno (hturn.completedOver hold)⟩
    · obtain ⟨i, hc, hno⟩ := hturn.access hn h1
      exact ⟨i, hstay i hc, hno⟩

/-- References are those of the unfinished calls, and all that these read is there. -/
structure Pinned (m : ManagerState (InMemoryTier P L) ω) : Prop where
  refs : ∀ n < m.forest.nodes.size, (m.forest.node n).refCount = m.holders n
  blobs : ∀ c ∈ m.calls, c.unfinished = true → ∀ n ∈ c.path, ∃ h payload, (m.forest.node n).blob = some h ∧
    (m.forest.handle h).ready = true ∧ m.store.blobs.get? (m.forest.handle h).locator = some payload ∧
    c.nLayers ≤ payload.length
  reads : ∀ c ∈ m.calls, ∀ k, c.pc = .layer k → k < c.nLayers →
    ∃ blobs, readLayer (inMemoryTierStore P L) m.forest k m.store c.path = (.ok blobs, m.store)

theorem Held.pinned (h : Held count m) : Pinned m := by
  refine ⟨fun n hn => h.refs hn, fun c hc hu n hn => ?_, fun c hc k hpc hk => ?_⟩
  · obtain ⟨k, hpc⟩ := MaterializeCall.unfinished_iff.mp hu
    obtain ⟨hlt, hb⟩ := (h.paths hc hu).2 n hn
    obtain ⟨b, hb⟩ := Option.ne_none_iff_exists'.mp hb
    obtain ⟨_, hready, hloc, _, payload, hpay, hlen⟩ := h.sound.stored hlt hb
    refine ⟨b, payload, hb, hready, by rw [hloc]; exact hpay, ?_⟩
    rw [h.layers hc hpc, hlen]
  · have hu := MaterializeCall.unfinished_iff.mpr ⟨k, hpc⟩
    rw [h.layers hc hpc] at hk
    exact readLayer_stored h.sound hk (h.paths hc hu).2

theorem init_held : Held count (ManagerState.init {} : ManagerState (InMemoryTier P L) ω) :=
  ⟨⟨Shape.empty, (fun hn => nomatch hn), fun hn => nomatch hn⟩, (fun hn => nomatch hn), (fun hc => nomatch hc),
    fun hc => nomatch hc⟩

/-- However calls, evictions and ingests interleave, reads under way find their blobs, references count
them, and only completed calls touch their nodes. -/
theorem materialize_pins_reads (h : Reachable (ManagerState.step (inMemoryTierStore P L) W cfg count)
    (ManagerState.init {}) m) :
    Pinned m ∧ ∀ es m', run (ManagerState.step (inMemoryTierStore P L) W cfg count) m es = some m' →
      ∀ n < m.forest.nodes.size, (m'.forest.node n).lastAccess ≠ (m.forest.node n).lastAccess →
        ∃ i, CompletedOver m' i n ∧ ¬ CompletedOver m i n := by
  have hm : Held count m := h.invariant (fun _ _ _ hI he => hI.step he) init_held
  exact ⟨hm.pinned, fun es m' hr n hn => (run_access hm hr hn).2⟩

end

/-- Two chunks; two calls over both, the first of which fails while the second still reads, with an
eviction tried and a chunk stored anew in between. -/
def demoRun : List (ManagerEvent Unit Unit Unit) :=
  [.create [1] [], .ingest ⟨0, .int 1, [2], 0, [()], (), 0, none⟩,
    .ingest ⟨1, .int 1, [3], 1, [()], (), 0, none⟩, .start 2 (), .start 2 (), .evict 2, .raise 0 .store,
    .ingest ⟨1, .int 1, [3], 1, [()], (), 0, none⟩]

/-- The second call reads its layer and ends; then the eviction goes through. -/
def demoRest : List (ManagerEvent Unit Unit Unit) := [.seed 1, .finish 1 5, .evict 2]

def demoStep := ManagerState.step (inMemoryTierStore Unit Unit) idleWindow ⟨2, 1, 1, .cpu⟩ 1

/-- The eviction is refused while the second call reads, and goes through once it has finished. -/
theorem materialize_pins_reads_two_calls : ∃ m m',
    run demoStep (ManagerState.init {}) demoRun = some m ∧ run demoStep m demoRest = some m' ∧
      Pinned m ∧ (m.forest.node 2).refCount = 1 ∧ (m.forest.node 2).blob.isSome = true ∧
      Pinned m' ∧ (m'.forest.node 2).refCount = 0 ∧ (m'.forest.node 2).blob = none ∧
      ∃ i, CompletedOver m' i 2 ∧ ¬ CompletedOver m i 2 := by
  obtain ⟨m, hm⟩ : ∃ m, run demoStep (ManagerState.init {}) demoRun = some m := ⟨_, rfl⟩
  have hreach : Reachable demoStep (ManagerState.init {}) m := ⟨demoRun, hm⟩
  obtain ⟨hpinned, haccess⟩ := materialize_pins_reads hreach
  have hmid : (run demoStep (ManagerState.init {}) demoRun).map (fun m =>
      (m.forest.nodes.size, (m.forest.node 2).refCount, (m.forest.node 2).blob.isSome, (m.forest.node 2).lastAccess)) =
        some (3, 1, true, 0) := by decide +kernel
  have hend : ((run demoStep (ManagerState.init {}) demoRun).bind fun m => run demoStep m demoRest).map (fun m =>
      ((m.forest.node 2).refCount, (m.forest.node 2).blob, (m.forest.node 2).lastAccess)) = some (0, none, 5) := by
    decide +kernel
  rw [hm] at hmid hend
  simp only [Option.map_some, Option.some.injEq, Prod.mk.injEq] at hmid
  obtain ⟨hsize, href, hblob, hold⟩ := hmid
  rw [Option.bind_some] at hend
  cases hrest : run demoStep m demoRest with
  | none =>
    rw [hrest] at hend
    cases hend
  | some m' =>
    rw [hrest] at hend
    simp only [Option.map_some, Option.some.injEq, Prod.mk.injEq] at hend
    obtain ⟨href', hblob', hnew⟩ := hend
    have hends : Pinned m' := (materialize_pins_reads ⟨demoRun ++ demoRest, run_append.mpr ⟨m, hm, hrest⟩⟩).1
    refine ⟨m, m', hm, hrest, hpinned, href, hblob, hends, href', hblob', ?_⟩
    apply haccess demoRest m' hrest 2 (by rw [hsize]; decide)
    rw [hnew, hold]
    decide

end CacheSeek.Proofs.PinnedReads
