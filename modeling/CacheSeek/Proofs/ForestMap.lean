import CacheSeek.Proofs.Worlds
import CacheSeek.Stores.Tier

namespace CacheSeek.Proofs.ForestMap
open CacheSeek.Lib CacheSeek.Prefix CacheSeek.Prefix.NamespaceForest CacheSeek.Stores
open CacheSeek.Proofs.KeyIdentity CacheSeek.Proofs.Worlds

variable {σ ω P L : Type} {digest : Bytes → Bytes} {S : KVTierStore σ P L} {W : RollingWindow ω P}
  {cfg : WorldKVConfig}

theorem ingest_extends {f : NamespaceForest} (h : Shape f) {n : NodeId} {r : Bytes}
    {p : List ActionKey} (hn : f.nodeAt r p = some n) (a : ActionKey) (k : Bytes) (d : Int)
    (b : IngestArgs P L) :
    Extends f (fill cfg (f.commit n a k d).1 (f.commit n a k d).2 b) :=
  (commit_extends h hn a k d).trans (Extends.sameTrie (fill_sameTrie _ _ b))

/-- One operation adds at most one event and moves no node. -/
theorem step_extends (hS : Synchronous S) {w w' : World σ} {op : Op P L ω} (h : Good digest cfg w)
    (hw : w.step digest S W cfg op = some w') :
    Extends w.forest w'.forest ∧ ∃ new, w'.log = new ++ w.log := by
  cases op with
  | create r c =>
    cases hw
    exact ⟨create_extends h.shape r c, [_], rfl⟩
  | start r actions resume =>
    simp only [World.step] at hw
    split at hw
    · cases hw
    · split at hw
      · cases hw
        exact ⟨Extends.refl _, [], rfl⟩
      · cases hw
  | ingest i payload latent nbytes nLayers =>
    simp only [World.step] at hw
    split at hw
    · cases hw
    · rename_i s hi
      split at hw
      · rename_i a k ha hk
        obtain ⟨st, hst⟩ := ingest_synchronous cfg hS w.forest w.store
          (s.ingestArgs a k payload latent nbytes nLayers)
        simp only [hst, Option.some.injEq] at hw
        subst w'
        exact ⟨ingest_extends h.shape (h.sessions s (List.mem_of_getElem? hi)).mount a k s.next _,
          [_], rfl⟩
      · cases hw
  | materialize n window now =>
    simp only [World.step] at hw
    split at hw
    · cases hw
      exact ⟨Extends.sameTrie (materialize_untouched S W cfg now w.forest w.store n window).sameTrie,
        [], rfl⟩
    · cases hw
  | evict n =>
    simp only [World.step] at hw
    split at hw
    · rcases evictBlob_cases S w.forest w.store n with ⟨b, hb, _, _, he⟩ | ⟨_, he⟩
      · simp only [he, Option.some.injEq] at hw
        subst w'
        exact ⟨Extends.sameTrie (SameTrie.modifyNode w.forest n _ fun _ => ⟨rfl, rfl, rfl, rfl, rfl⟩),
          [_], rfl⟩
      · simp only [he, Option.some.injEq] at hw
        subst w'
        exact ⟨Extends.refl _, [], rfl⟩
    · cases hw

theorem run_extends (hS : Synchronous S) {w w' : World σ} {ops : List (Op P L ω)}
    (h : Good digest cfg w) (hr : run (World.step digest S W cfg) w ops = some w') :
    Good digest cfg w' ∧ Extends w.forest w'.forest ∧ ∃ new, w'.log = new ++ w.log := by
  refine run_invariant (I := fun v => Good digest cfg v ∧ Extends w.forest v.forest ∧
    ∃ new, v.log = new ++ w.log) ?_ ⟨h, Extends.refl _, [], rfl⟩ hr
  rintro u op v ⟨hg, hx, new, hl⟩ hv
  obtain ⟨hx', new', hl'⟩ := step_extends hS hg hv
  exact ⟨step_good hS hg hv, hx.trans hx', new' ++ new, by rw [hl', hl, List.append_assoc]⟩

theorem live_append {r : Bytes} {p actions : List ActionKey} (hp : p <+: actions) {new : List Event}
    (hn : ∀ e ∈ new, e.concerns r actions = false) (log : List Event) :
    live r p (new ++ log) = live r p log := by
  induction new with
  | nil => rfl
  | cons e new ih =>
    have he := hn e (by simp)
    have ih := ih fun e' h => hn e' (by simp [h])
    cases e with
    | created r' => exact ih
    | ingested r' q | evicted r' q =>
      rw [List.cons_append, live, if_neg, ih]
      rintro ⟨rfl, rfl⟩
      simp [Event.concerns, List.isPrefixOf_iff_prefix.mpr hp] at he

/-- What comes with a match of `K` chunks. -/
structure Answer (digest : Bytes → Bytes) (f : NamespaceForest) (r : Bytes)
    (actions : List ActionKey) (m : PrefixMatch) : Prop where
  root : m.matchedLen = 0 → ∀ ns, m.ns = some ns → m.node = some ns.root ∧
    (f.node ns.root).nodeKey = r ∧ (f.node ns.root).depth = -1
  chunk : ∀ K, m.matchedLen = K + 1 → ∃ n, m.node = some n ∧ (f.node n).depth = K ∧
    actions[K]? = some (f.node n).action ∧
    (∃ chain, buildActionChain digest r ((actions.take (K + 1)).map ActionKey.bytes) = some chain ∧
      chain[K]? = some (f.node n).nodeKey) ∧
    (f.node n).skeleton = some ⟨latentLocator (f.node n).nodeKey⟩ ∧
    ∃ h, (f.node n).blob = some h ∧ (f.handle h).locator = kvLocator (f.node n).nodeKey

theorem lookup_answer {w : World σ} (h : Good digest cfg w) (r : Bytes) (actions : List ActionKey) :
    Answer digest w.forest r actions (w.forest.lookup r actions) := by
  cases hr : w.forest.resolve r with
  | none =>
    rw [Shape.lookup_none w.forest hr]
    constructor
    · intro _ ns hns
      cases hns
    · intro K hK
      cases hK
  | some ns =>
    rw [h.shape.lookup_eq hr]
    constructor
    · intro h0 ns' hns
      cases hns
      have h0 : longest (w.forest.published r) actions = 0 := h0
      refine ⟨?_, h.shape.root_key hr, h.shape.root_depth hr⟩
      simp only [h0, List.take_zero, nodeAt_nil, hr, Option.map_some]
    · intro K hK
      have hK : longest (w.forest.published r) actions = K + 1 := hK
      have hlt : K < actions.length := by
        have := longest_le (w.forest.published r) actions
        omega
      have hp : w.forest.published r (actions.take (K + 1)) = true :=
        longest_holds _ _ (by omega) (by omega)
      obtain ⟨n, hn, hkv⟩ := published_iff.mp hp
      obtain ⟨b, hb, _⟩ := hasKv_iff.mp hkv
      have hsnoc : actions.take (K + 1) = actions.take K ++ [actions[K]] := by
        rw [List.take_add_one, List.getElem?_eq_getElem hlt]
        rfl
      obtain ⟨m, _, _, hpar, hact⟩ := h.shape.nodeAt_snoc_iff.mp (hsnoc ▸ hn)
      have hk := h.kept n (h.shape.nodeAt_lt hn) (by rw [hpar]; exact Option.some_ne_none m)
      refine ⟨n, ?_, ?_, ?_, ?_, hk.skeleton, b, hb, (hk.blob b hb).2.1⟩
      · simp only [hK, hn]
      · rw [nodeAt_depth h.shape h.edges hn, List.length_take, Nat.min_eq_left hlt]
        omega
      · rw [List.getElem?_eq_getElem hlt, hact]
      · obtain ⟨chain, hc, _⟩ := buildActionChain_of_pathKey (nodeAt_key h.shape h.edges hn)
        refine ⟨chain, hc, ?_⟩
        rw [(buildActionChain_get hc).2 K (by rw [List.length_take]; omega), List.take_take,
          Nat.min_self, nodeAt_key h.shape h.edges hn]

theorem lookup_ns_none {w : World σ} (h : Good digest cfg w) (r : Bytes) (actions : List ActionKey) :
    (w.forest.lookup r actions).ns = none ↔ .created r ∉ w.log := by
  rw [← h.worlds r, not_not]
  cases hr : w.forest.resolve r with
  | none => simp [Shape.lookup_none w.forest hr]
  | some ns => simp [h.shape.lookup_eq hr]

/-- Operations on other paths leave an answer as it was. -/
theorem lookup_frame (hS : Synchronous S) {w w' : World σ} {ops : List (Op P L ω)}
    (h : Good digest cfg w) (hr : run (World.step digest S W cfg) w ops = some w') :
    ∃ new, w'.log = new ++ w.log ∧ ∀ r actions, (∀ e ∈ new, e.concerns r actions = false) →
      w'.forest.lookup r actions = w.forest.lookup r actions := by
  obtain ⟨h', hx, new, hl⟩ := run_extends hS h hr
  refine ⟨new, hl, fun r actions hnew => ?_⟩
  have hlen : longest (w'.forest.published r) actions = longest (w.forest.published r) actions := by
    rw [← h.shape.matchedLen_eq, ← h'.shape.matchedLen_eq, h.matchedLen, h'.matchedLen, hl]
    exact longest_congr fun j _ _ => live_append (List.take_prefix j actions) hnew w.log
  cases hres : w.forest.resolve r with
  | some ns =>
    obtain ⟨n, _, hn⟩ := h.shape.descend_eq [] actions 0 (Shape.nodeAt_nil_iff.mpr ⟨ns, hres, rfl⟩)
    rw [List.nil_append] at hn
    change w.forest.nodeAt r (actions.take (longest (w.forest.published r) actions)) = _ at hn
    rw [h.shape.lookup_eq hres, h'.shape.lookup_eq (hx.resolve hres), hlen, hn, hx.nodeAt hn]
  | none =>
    rw [Shape.lookup_none _ hres, Shape.lookup_none]
    rw [← not_not (a := w'.forest.resolve r = none)]
    intro hc
    have hc := (h'.worlds r).mp hc
    rw [hl, List.mem_append] at hc
    rcases hc with hc | hc
    · simpa [Event.concerns] using hnew _ hc
    · exact (h.worlds r).mpr hc hres

/-- `evict_blob` answers true for the stored chunks behind the sink. -/
theorem evict_iff {w : World σ} (h : Good digest cfg w) (S : KVTierStore σ P L) {r : Bytes}
    {p : List ActionKey} {n : NodeId} (hn : w.forest.nodeAt r p = some n) :
    (evictBlob S w.forest w.store n).1 = true ↔
      p ≠ [] ∧ live r p w.log = true ∧ cfg.sinkChunks ≤ (p.length : Int) - 1 := by
  have hlt := h.shape.nodeAt_lt hn
  have hdep := nodeAt_depth h.shape h.edges hn
  by_cases hp : p = []
  · subst p
    obtain ⟨ns, hr, rfl⟩ := Shape.nodeAt_nil_iff.mp hn
    have hroot := h.roots ns.root hlt (h.shape.root_parent hr)
    simp [evictBlob, hroot.1]
  · have hk : Kept cfg w.forest n := by
      apply h.kept n hlt
      intro hpar
      obtain ⟨ns, hr, he⟩ := h.shape.rooted hlt hpar
      exact hp (h.shape.nodeAt_inj hn (Shape.nodeAt_nil_iff.mpr ⟨ns, hr, he⟩)).2
    have hlive : live r p w.log = true ↔ (w.forest.node n).blob ≠ none := by
      rw [← h.log r p hp, published_iff]
      constructor
      · rintro ⟨m, hm, hkv⟩
        rw [hn] at hm
        cases hm
        obtain ⟨b, hb, _⟩ := hasKv_iff.mp hkv
        rw [hb]
        exact Option.some_ne_none b
      · intro hb
        obtain ⟨b, hb⟩ := Option.ne_none_iff_exists'.mp hb
        exact ⟨n, hn, hasKv_iff.mpr ⟨b, hb, (hk.blob b hb).2.2⟩⟩
    have hpin : (w.forest.node n).pinned = false ↔ cfg.sinkChunks ≤ (p.length : Int) - 1 := by
      rw [hk.pinned, decide_eq_false_iff_not, Int.not_lt, hdep]
    rw [hlive, ← hpin]
    rcases evictBlob_cases S w.forest w.store n with ⟨b, hb, h1, _, he⟩ | ⟨hc, he⟩
    · simp [he, hp, hb, h1]
    · rw [he]
      simp only [Bool.false_eq_true, false_iff, not_and, Bool.not_eq_false]
      intro _ hb
      rcases hc with hc | hc | hc
      · exact absurd hc hb
      · exact hc
      · rw [h.refs n hlt] at hc
        omega

/-- A forest of sessions over a synchronous store is a map of published prefixes. -/
theorem forest_refines_history (hS : Synchronous S) {w : World σ} {st : σ} {ops : List (Op P L ω)}
    (hr : run (World.step digest S W cfg) (World.init st) ops = some w) :
    (∀ r actions,
      IsGreatest {k | k ≤ actions.length ∧ ∀ j, 1 ≤ j → j ≤ k →
        live r (actions.take j) w.log = true} (w.forest.lookup r actions).matchedLen ∧
      ((w.forest.lookup r actions).ns = none ↔ .created r ∉ w.log) ∧
      Answer digest w.forest r actions (w.forest.lookup r actions)) ∧
    (∀ more w', run (World.step digest S W cfg) w more = some w' →
      ∃ new, w'.log = new ++ w.log ∧ ∀ r actions, (∀ e ∈ new, e.concerns r actions = false) →
        w'.forest.lookup r actions = w.forest.lookup r actions) ∧
    (∀ n, n < w.forest.nodes.size → ∃ r p, w.forest.address n = (r, p) ∧
      w.forest.nodeAt r p = some n ∧
      ((evictBlob S w.forest w.store n).1 = true ↔
        (w.forest.node n).blob ≠ none ∧ (w.forest.node n).pinned = false ∧
          (w.forest.node n).refCount = 0) ∧
      ((evictBlob S w.forest w.store n).1 = true ↔
        p ≠ [] ∧ live r p w.log = true ∧ cfg.sinkChunks ≤ (p.length : Int) - 1)) := by
  have h := run_good hS hr
  refine ⟨fun r actions => ⟨?_, lookup_ns_none h r actions, lookup_answer h r actions⟩,
    fun more w' hm => lookup_frame hS h hm, fun n hn => ?_⟩
  · rw [h.matchedLen]
    exact longest_isGreatest (fun p => live r p w.log) actions
  · obtain ⟨r, p, hp⟩ := h.shape.exists_path h.attached hn
    refine ⟨r, p, address_eq h.shape hp, hp, ?_, evict_iff h S hp⟩
    rw [h.refs n hn]
    rcases evictBlob_cases S w.forest w.store n with ⟨b, hb, h1, _, he⟩ | ⟨hc, he⟩
    · simp [he, hb, h1]
    · rw [h.refs n hn] at hc
      rcases hc with hc | hc | hc
      · simp [he, hc]
      · simp [he, hc]
      · omega

theorem inMemory_synchronous (P L : Type) : Synchronous (inMemoryTierStore P L) :=
  ⟨fun _ _ _ _ => rfl, fun _ _ _ => rfl⟩

def idleWindow : RollingWindow Unit Unit := ⟨fun w _ _ _ => (.ok (), w), fun w _ => w⟩

def twoChunks : List (Op Unit Unit Unit) :=
  [.create [1] [2], .start [1] [.int 1, .str "w"] false, .ingest 0 [()] () 0 none,
    .ingest 0 [()] () 0 none, .evict 2]

theorem forest_refines_two_chunks : ∃ w,
    run (World.step id (inMemoryTierStore Unit Unit) idleWindow ⟨2, 1, 1, .cpu⟩) (World.init {})
      twoChunks = some w ∧
    IsGreatest {k | k ≤ 2 ∧ ∀ j, 1 ≤ j → j ≤ k →
      live [1] (([.int 1, .str "w"] : List ActionKey).take j) w.log = true}
      (w.forest.lookup [1] [.int 1, .str "w"]).matchedLen := by
  obtain ⟨w, hw⟩ : ∃ w, run (World.step id (inMemoryTierStore Unit Unit) idleWindow ⟨2, 1, 1, .cpu⟩)
      (World.init {}) twoChunks = some w := ⟨_, rfl⟩
  exact ⟨w, hw, ((forest_refines_history (inMemory_synchronous Unit Unit) hw).1 [1] _).1⟩

end CacheSeek.Proofs.ForestMap
