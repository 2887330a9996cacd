import CacheSeek.Prefix.Process
import CacheSeek.Proofs.LocalDiskCrash
import CacheSeek.Proofs.ReadyBlobs

namespace CacheSeek.Proofs.RestartHidden
open CacheSeek.Lib CacheSeek.Prefix CacheSeek.Prefix.NamespaceForest CacheSeek.Stores
open CacheSeek.Proofs.SnapshotLoad CacheSeek.Proofs.SnapshotMerged CacheSeek.Proofs.SnapshotRuns
open CacheSeek.Proofs.SnapshotRoundTrip CacheSeek.Proofs.StoreSlots CacheSeek.Proofs.LastPayload
open CacheSeek.Proofs.ForestView CacheSeek.Proofs.TwinForests CacheSeek.Proofs.ReadyBlobs
open CacheSeek.Proofs.LocalDiskCrash

section
variable {β τ : Type} {B : TensorStore β τ} {spec : τ → TensorSpec} {s t : TensorStoreTier β}

def Backed (B : TensorStore β τ) (s : TensorStoreTier β) : Prop :=
  ∀ {key sp}, s.specs.get? key = some sp →
    ∃ raw, B.get s.ts (key ++ ":spec") = some raw ∧ TensorSpec.ofText raw = .ok sp

structure OneBacking (B : TensorStore β τ) (s t : TensorStoreTier β) : Prop where
  ts : t.ts = s.ts
  left : Backed B s
  right : Backed B t

theorem OneBacking.renew (h : OneBacking B s t) : OneBacking B s t.renew := by
  refine ⟨h.ts, h.left, ?_⟩
  intro key sp hsp
  cases hsp

def readBack (B : TensorStore β τ) (b : β) (key : String) : Except PyError (Option τ) :=
  match B.get b (key ++ ":spec") with
  | none => .ok none
  | some raw =>
    match TensorSpec.ofText raw with
    | .error e => .error e
    | .ok sp => B.getTensor b key sp

/-- Any instance reads the same. -/
theorem getOne_backed (h : Backed B s) (key : String) :
    (s.getOne B key).1 = readBack B s.ts key ∧ (s.getOne B key).2.ts = s.ts ∧ Backed B (s.getOne B key).2 := by
  unfold TensorStoreTier.getOne readBack
  cases hsp : s.specs.get? key with
  | some sp =>
    obtain ⟨raw, hraw, hof⟩ := h hsp
    simp only [hraw, hof]
    exact ⟨trivial, trivial, h⟩
  | none =>
    cases hraw : B.get s.ts (key ++ ":spec") with
    | none => exact ⟨rfl, rfl, h⟩
    | some raw =>
      dsimp only
      cases hof : TensorSpec.ofText raw with
      | error e => exact ⟨rfl, rfl, h⟩
      | ok sp =>
        refine ⟨rfl, rfl, ?_⟩
        intro key' sp' hsp'
        by_cases he : key' = key
        · subst he
          rw [Dict.get?_set_self, Option.some.injEq] at hsp'
          exact ⟨raw, hraw, hsp' ▸ hof⟩
        · rw [Dict.get?_set_ne _ _ he] at hsp'
          exact h hsp'

theorem getOne_twin (h : OneBacking B s t) (key : String) :
    (t.getOne B key).1 = (s.getOne B key).1 ∧ OneBacking B (s.getOne B key).2 (t.getOne B key).2 := by
  obtain ⟨h1, h2, h3⟩ := getOne_backed h.left key
  obtain ⟨g1, g2, g3⟩ := getOne_backed h.right key
  exact ⟨by rw [g1, h1, h.ts], by rw [g2, h2, h.ts], h3, g3⟩

theorem getLayer_twin (h : OneBacking B s t) (b : BlobHandle) (layer : Nat) :
    (t.getLayer B b layer).1 = (s.getLayer B b layer).1 ∧
      OneBacking B (s.getLayer B b layer).2 (t.getLayer B b layer).2 := by
  obtain ⟨hk, h1⟩ := getOne_twin h (TensorTier.layerKey b.locator layer ++ ":k")
  simp only [TensorStoreTier.getLayer]
  generalize s.getOne B (TensorTier.layerKey b.locator layer ++ ":k") = x at hk h1 ⊢
  generalize t.getOne B (TensorTier.layerKey b.locator layer ++ ":k") = y at hk h1 ⊢
  obtain ⟨res, s1⟩ := x
  obtain ⟨res', t1⟩ := y
  simp only at hk h1
  subst hk
  cases res' with
  | error e => exact ⟨rfl, h1⟩
  | ok k =>
    cases k with
    | some k =>
      obtain ⟨hv, h2⟩ := getOne_twin h1 (TensorTier.layerKey b.locator layer ++ ":v")
      dsimp only
      generalize s1.getOne B (TensorTier.layerKey b.locator layer ++ ":v") = x at hv h2 ⊢
      generalize t1.getOne B (TensorTier.layerKey b.locator layer ++ ":v") = y at hv h2 ⊢
      obtain ⟨res, s2⟩ := x
      obtain ⟨res', t2⟩ := y
      simp only at hv h2
      subst hv
      cases res' <;> exact ⟨rfl, h2⟩
    | none =>
      obtain ⟨hv, h2⟩ := getOne_twin h1 (TensorTier.layerKey b.locator layer)
      dsimp only
      generalize s1.getOne B (TensorTier.layerKey b.locator layer) = x at hv h2 ⊢
      generalize t1.getOne B (TensorTier.layerKey b.locator layer) = y at hv h2 ⊢
      obtain ⟨res, s2⟩ := x
      obtain ⟨res', t2⟩ := y
      simp only at hv h2
      subst hv
      cases res' with
      | error e => exact ⟨rfl, h2⟩
      | ok v => cases v <;> exact ⟨rfl, h2⟩

variable (hB : B.Correct spec)
include hB

/-- A put under a slot's key leaves the other sidecars alone. -/
theorem putOne_backed (h : Backed B s) (a : Slot) (x : Option τ) : Backed B (s.putOne B spec a.key x).2 := by
  cases x with
  | none => exact h
  | some x =>
    intro key sp hsp
    by_cases he : key = a.key
    · subst he
      rw [TensorStoreTier.putOne, Dict.get?_set_self, Option.some.injEq] at hsp
      exact ⟨(spec x).toText, hB.get_self _ _ _, hsp ▸ ofText_toText (spec x)⟩
    · rw [TensorStoreTier.putOne, Dict.get?_set_ne _ _ he] at hsp
      obtain ⟨raw, hraw, hof⟩ := h hsp
      have hspec : key ++ ":spec" ≠ a.key ++ ":spec" := by
        intro hk
        have hlist := congrArg String.toList hk
        rw [String.toList_append, String.toList_append] at hlist
        exact he (String.toList_inj.mp (List.append_cancel_right hlist))
      have hslot : key ++ ":spec" ≠ a.key := by
        intro hk
        apply a.key_getLast
        rw [← hk, String.toList_append]
        simp
      refine ⟨raw, ?_, hof⟩
      simp only [TensorStoreTier.putOne]
      rw [hB.get_other _ _ _ _ hspec, hB.get_putTensor _ _ _ _ hslot, hraw]

theorem putOne_twin (h : OneBacking B s t) (a : Slot) (x : Option τ) :
    (t.putOne B spec a.key x).1 = (s.putOne B spec a.key x).1 ∧
      OneBacking B (s.putOne B spec a.key x).2 (t.putOne B spec a.key x).2 := by
  refine ⟨?_, ?_, putOne_backed hB h.left a x, putOne_backed hB h.right a x⟩
  · cases x <;> rfl
  · cases x with
    | none => exact h.ts
    | some x => simp only [TensorStoreTier.putOne, h.ts]

theorem putAll_twin (h : OneBacking B s t) {writes : List (String × Option τ)}
    (hw : ∀ w ∈ writes, ∃ a : Slot, w.1 = a.key) :
    (t.putAll B spec writes).1 = (s.putAll B spec writes).1 ∧
      OneBacking B (s.putAll B spec writes).2 (t.putAll B spec writes).2 := by
  induction writes generalizing s t with
  | nil => exact ⟨rfl, h⟩
  | cons w writes ih =>
    obtain ⟨key, x⟩ := w
    obtain ⟨a, hkey⟩ := hw _ List.mem_cons_self
    simp only at hkey
    subst hkey
    obtain ⟨hans, h1⟩ := putOne_twin hB h a x
    simp only [TensorStoreTier.putAll]
    generalize s.putOne B spec a.key x = y at hans h1 ⊢
    generalize t.putOne B spec a.key x = z at hans h1 ⊢
    obtain ⟨res, s1⟩ := y
    obtain ⟨res', t1⟩ := z
    simp only at hans h1
    subst hans
    cases res' with
    | error e => exact ⟨rfl, h1⟩
    | ok => exact ih h1 fun w hmem => hw w (List.mem_cons_of_mem _ hmem)

omit hB in
theorem payloadWrites_slot {node : Bytes} {n : Nat} {payload : List (LayerValue τ)} {w : String × Option τ}
    (hw : w ∈ TensorTier.payloadWrites (kvLocator node) n payload) : ∃ a : Slot, w.1 = a.key := by
  induction payload generalizing n with
  | nil => cases hw
  | cons p payload ih =>
    cases p with
    | miss =>
      rcases List.mem_cons.mp hw with rfl | hw
      · exact ⟨.layer node n .whole, (Slot.key_whole node n).symm⟩
      · exact ih hw
    | single x =>
      rcases List.mem_cons.mp hw with rfl | hw
      · exact ⟨.layer node n .whole, (Slot.key_whole node n).symm⟩
      · exact ih hw
    | pair k v =>
      rcases List.mem_cons.mp hw with rfl | hw
      · exact ⟨.layer node n .k, rfl⟩
      · rcases List.mem_cons.mp hw with rfl | hw
        · exact ⟨.layer node n .v, rfl⟩
        · exact ih hw

/-- The instances answer the manager alike. -/
theorem oneBacking_carries : Carries (tensorStoreOver B spec) (OneBacking B) where
  put {s t} h node payload b c := by
    have hslots : ∀ w ∈ TensorTier.payloadWrites (kvLocator node) 0 payload, ∃ a : Slot, w.1 = a.key := fun _ hw =>
      payloadWrites_slot hw
    obtain ⟨hans, h1⟩ := putAll_twin hB h hslots
    simp only [tensorStoreOver]
    generalize s.putAll B spec (TensorTier.payloadWrites (kvLocator node) 0 payload) = x at hans h1 ⊢
    generalize t.putAll B spec (TensorTier.payloadWrites (kvLocator node) 0 payload) = y at hans h1 ⊢
    obtain ⟨res, s1⟩ := x
    obtain ⟨res', t1⟩ := y
    simp only at hans h1
    subst hans
    cases res' <;> exact ⟨rfl, h1⟩
  putSkeleton h node latent := putOne_twin hB h (.latent node) (some latent)
  getLayer h b layer := getLayer_twin h b layer
  getSkeleton h loc := getOne_twin h loc
  freeLeft h _ := h
  freeRight h _ := h

end

/-- A payload that misses no tensor. -/
def Whole {τ : Type} (kvPayload : List (LayerValue τ)) : Prop := ∀ v ∈ kvPayload, v.whole = true

theorem putAll_whole {β τ : Type} {B : TensorStore β τ} {spec : τ → TensorSpec} {loc : String} {n : Nat}
    {payload : List (LayerValue τ)} (h : Whole payload) (s : TensorStoreTier β) :
    (s.putAll B spec (TensorTier.payloadWrites loc n payload)).1 = .ok () := by
  induction payload generalizing n s with
  | nil => rfl
  | cons v payload ih =>
    obtain ⟨hv, hrest⟩ := List.forall_mem_cons.mp h
    cases v with
    | miss => cases hv
    | single x => exact ih hrest _
    | pair k v =>
      cases k with
      | none => cases hv
      | some k =>
        cases v with
        | none => cases hv
        | some v => exact ih hrest _

/-- A whole payload is published by the put itself. -/
theorem whole_publishes {β τ : Type} (B : TensorStore β τ) (spec : τ → TensorSpec) :
    Publishes (tensorStoreOver B spec) Whole := by
  intro s loc payload b h
  have hput := @putAll_whole _ _ B spec loc 0 _ h s
  simp only [tensorStoreOver]
  generalize s.putAll B spec (TensorTier.payloadWrites loc 0 payload) = x at hput ⊢
  obtain ⟨res, s1⟩ := x
  simp only at hput
  subst hput
  rfl

section
variable {σ ω P L : Type} {digest : Bytes → Bytes} {S : KVTierStore σ P L} {W : RollingWindow ω P}
  {cfg : WorldKVConfig} {R : σ → σ → Prop} {p q : Process σ}

/-- A world gets a root hash that is no chunk's key. -/
def Rooted (digest : Bytes → Bytes) : ProcessCall ω P L → Prop
  | .create r _ => Apart digest r
  | _ => True

def Given (E : List P → Prop) : ProcessCall ω P L → Prop
  | .ingest _ _ _ kvPayload _ _ => E kvPayload
  | _ => True

/-- An answer, but for whether an eviction had a blob to drop. -/
def plain : ProcessAnswer ω L → ProcessAnswer ω L
  | .evicted _ => .done
  | a => a

/-- Processes that look the same from outside. -/
structure Twin (digest : Bytes → Bytes) (R : σ → σ → Prop) (p q : Process σ) : Prop where
  same : Same p.forest q.forest
  left : Sturdy digest p.forest
  right : Sturdy digest q.forest
  idleLeft : Idle p.forest
  idleRight : Idle q.forest
  store : R p.store q.store

theorem empty_twin {s : σ} (h : R s s) : Twin digest R ⟨.empty, s⟩ ⟨.empty, s⟩ :=
  ⟨Same.refl _, empty_sturdy, empty_sturdy, fun _ => rfl, fun _ => rfl, h⟩

theorem Twin.at (h : Twin digest R p q) {r : Bytes} {path : List ActionKey} {n : NodeId}
    (hn : p.forest.nodeAt r path = some n) :
    ∃ m, q.forest.nodeAt r path = some m ∧ Twins digest p.forest q.forest r path n m := by
  obtain ⟨m, hm, -⟩ := h.same.node hn
  exact ⟨m, hm, h.same, h.left, h.right, hn, hm⟩

theorem Twin.create (h : Twin digest R p q) {r : Bytes} (hr : Apart digest r) (c : Bytes) :
    Twin digest R { p with forest := (p.forest.getOrCreateNamespace r c).1 }
      { q with forest := (q.forest.getOrCreateNamespace r c).1 } :=
  ⟨h.same.create h.left h.right r c, create_sturdy h.left hr c, create_sturdy h.right hr c, h.idleLeft.create r c,
    h.idleRight.create r c, h.store⟩

theorem Twin.resume (h : Twin digest R p q) (hS : Carries S R) (now : Rat) (r : Bytes) (actions : List ActionKey)
    (w : ω) :
    (Process.call digest S W cfg q (.resume now r actions w)).1 =
        (Process.call digest S W cfg p (.resume now r actions w)).1 ∧
      Twin digest R (Process.call digest S W cfg p (.resume now r actions w)).2
        (Process.call digest S W cfg q (.resume now r actions w)).2 := by
  have hu := tryFastForward_untouched S W cfg now p.forest p.store r actions w
  have hu' := tryFastForward_untouched S W cfg now q.forest q.store r actions w
  obtain ⟨hans, hR, hw⟩ := tryFastForward_twin (W := W) cfg hS h.store h.same h.left h.right now actions w
  simp only [Process.call]
  refine ⟨by rw [hans, hw], h.same.untouched hu hu', untouched_sturdy h.left hu, untouched_sturdy h.right hu',
    h.idleLeft.untouched hu, h.idleRight.untouched hu', hR⟩

theorem Twin.ingest (h : Twin digest R p q) (hS : Carries S R) {r : Bytes} {path : List ActionKey} {n m : NodeId}
    (ht : Twins digest p.forest q.forest r path n m) (action : ActionKey) (kvPayload : List P) (latent : L)
    (nbytes : Int) :
    (q.ingestAt (ω := ω) digest S cfg m action kvPayload latent nbytes).1 =
        (p.ingestAt digest S cfg n action kvPayload latent nbytes).1 ∧
      Twin digest R (p.ingestAt (ω := ω) digest S cfg n action kvPayload latent nbytes).2
        (q.ingestAt (ω := ω) digest S cfg m action kvPayload latent nbytes).2 := by
  simp only [Process.ingestAt, ht.nodeKey]
  cases hkey : nodeKey digest (p.forest.node n).nodeKey action.bytes with
  | none => exact ⟨rfl, h⟩
  | some key =>
    have hargs : Process.chunkArgs q.forest m action key kvPayload latent nbytes =
        { Process.chunkArgs p.forest n action key kvPayload latent nbytes with parent := m } := by
      simp only [Process.chunkArgs, ht.depth]
    have hkey' : nodeKey digest (q.forest.node m).nodeKey action.bytes = some key := by rw [ht.nodeKey, hkey]
    have hleft : Chained digest p.forest (Process.chunkArgs p.forest n action key kvPayload latent nbytes) :=
      ⟨h.left.shape.nodeAt_lt ht.leftAt, hkey, rfl⟩
    have hright : Chained digest q.forest (Process.chunkArgs q.forest m action key kvPayload latent nbytes) :=
      ⟨h.right.shape.nodeAt_lt ht.rightAt, hkey', rfl⟩
    obtain ⟨hans, hsame, hR⟩ := ingest_twin cfg hS h.store
      (a := Process.chunkArgs p.forest n action key kvPayload latent nbytes) ht ⟨hkey, rfl⟩
    dsimp only
    rw [hargs] at hright ⊢
    exact ⟨congrArg ProcessAnswer.ingested hans, hsame, ingest_sturdy h.left hleft p.store,
      ingest_sturdy h.right hright q.store, h.idleLeft.ingest p.store _, h.idleRight.ingest q.store _, hR⟩

theorem Twin.latent (h : Twin digest R p q) (hS : Carries S R) {r : Bytes} {path : List ActionKey} {n m : NodeId}
    (ht : Twins digest p.forest q.forest r path n m) :
    (q.latentAt (ω := ω) S m).1 = (p.latentAt S n).1 ∧
      Twin digest R (p.latentAt (ω := ω) S n).2 (q.latentAt (ω := ω) S m).2 := by
  simp only [Process.latentAt, ht.skeleton]
  cases (p.forest.node n).skeleton with
  | none => exact ⟨rfl, h⟩
  | some sk =>
    obtain ⟨hans, hR⟩ := hS.getSkeleton h.store sk.latentLocator
    exact ⟨congrArg ProcessAnswer.latent hans, h.same, h.left, h.right, h.idleLeft, h.idleRight, hR⟩

theorem Twin.evict (h : Twin digest R p q) (hS : Carries S R) {r : Bytes} {path : List ActionKey} {n m : NodeId}
    (ht : Twins digest p.forest q.forest r path n m) :
    Twin digest R ⟨(evictBlob S p.forest p.store n).2.1, (evictBlob S p.forest p.store n).2.2⟩
      ⟨(evictBlob S q.forest q.store m).2.1, (evictBlob S q.forest q.store m).2.2⟩ := by
  refine ⟨?_, evict_sturdy h.left p.store n, evict_sturdy h.right q.store m, h.idleLeft.evict p.store n,
    h.idleRight.evict q.store m, evict_free hS h.store p.forest q.forest n m⟩
  intro r' path'
  rw [evict_view h.right h.idleRight ht.rightAt, evict_view h.left h.idleLeft ht.leftAt, h.same r path,
    h.same r' path']

/-- One call: the same answer but for an eviction's, and twins again. -/
theorem Twin.call (h : Twin digest R p q) (hS : Carries S R) (c : ProcessCall ω P L) (hc : Rooted digest c) :
    ((∀ r path, c ≠ .evict r path) →
        (Process.call digest S W cfg q c).1 = (Process.call digest S W cfg p c).1) ∧
      Twin digest R (Process.call digest S W cfg p c).2 (Process.call digest S W cfg q c).2 := by
  cases c with
  | create r c => exact ⟨fun _ => rfl, h.create hc c⟩
  | lookup r actions =>
    obtain ⟨hns, hlen⟩ := lookup_twin h.same h.left h.right r actions
    simp only [Process.call, hns, hlen]
    exact ⟨fun _ => trivial, h⟩
  | resume now r actions w =>
    obtain ⟨hans, hnext⟩ := h.resume hS now r actions w
    exact ⟨fun _ => hans, hnext⟩
  | ingest r path action kvPayload latent nbytes =>
    simp only [Process.call]
    cases hn : p.forest.nodeAt r path with
    | none =>
      rw [h.same.missing hn]
      exact ⟨fun _ => rfl, h⟩
    | some n =>
      obtain ⟨m, hm, ht⟩ := h.at hn
      rw [hm]
      obtain ⟨hans, hnext⟩ := h.ingest hS ht action kvPayload latent nbytes
      exact ⟨fun _ => hans, hnext⟩
  | latent r path =>
    simp only [Process.call]
    cases hn : p.forest.nodeAt r path with
    | none =>
      rw [h.same.missing hn]
      exact ⟨fun _ => rfl, h⟩
    | some n =>
      obtain ⟨m, hm, ht⟩ := h.at hn
      rw [hm]
      obtain ⟨hans, hnext⟩ := h.latent hS ht
      exact ⟨fun _ => hans, hnext⟩
  | evict r path =>
    refine ⟨fun hne => absurd rfl (hne r path), ?_⟩
    simp only [Process.call]
    cases hn : p.forest.nodeAt r path with
    | none =>
      rw [h.same.missing hn]
      exact h
    | some n =>
      obtain ⟨m, hm, ht⟩ := h.at hn
      rw [hm]
      exact h.evict hS ht

theorem plain_evict (p : Process σ) (r : Bytes) (path : List ActionKey) :
    plain (Process.call digest S W cfg p (.evict r path)).1 = .done := by
  simp only [Process.call]
  split <;> rfl

theorem Twin.plain (h : Twin digest R p q) (hS : Carries S R) (c : ProcessCall ω P L) (hc : Rooted digest c) :
    plain (Process.call digest S W cfg q c).1 = plain (Process.call digest S W cfg p c).1 := by
  have hsame := (@Twin.call σ ω P L digest S W cfg R p q h hS c hc).1
  cases c with
  | evict r path => rw [plain_evict, plain_evict]
  | _ => exact congrArg RestartHidden.plain (hsame fun _ _ hne => nomatch hne)

/-- A loaded forest has the view of the one that was saved. -/
theorem loaded_same {f g : NamespaceForest} (hf : Sturdy digest f)
    (hm : Merged digest f .empty g fun r => f.resolve r ≠ none) : Same f g := by
  intro r path
  have hnode := loaded_node hf hm r path
  cases hn : f.nodeAt r path with
  | none =>
    rw [hn] at hnode
    rw [view_none_iff.mpr hn, view_none_iff.mpr hnode.of_none]
  | some n =>
    rw [hn] at hnode
    obtain ⟨m, hg, hs⟩ := hnode.of_some
    rw [view_some hn, view_some hg]
    simp only [nodeView, hs.nodeKey, hs.action, hs.depth, hs.pinned, hs.skeleton, hs.blob]

/-- The snapshot's text is read back as it was written. -/
theorem restart_eq (renew : σ → σ) (p : Process σ) :
    Process.restart renew p =
      match NamespaceForest.empty.loadSnapshot p.forest.snapshot with
      | (.ok _, g) => some ⟨g, renew p.store⟩
      | _ => none := by
  simp only [Process.restart, load_saved, Option.getD_none]
  generalize NamespaceForest.empty.loadSnapshot p.forest.snapshot = x
  obtain ⟨res, g⟩ := x
  cases res <;> rfl

theorem Twin.restart (hd : Hash digest) {renew : σ → σ} (hrenew : ∀ {s t}, R s t → R s (renew t))
    (h : Twin digest R p q) : ∃ q', Process.restart renew q = some q' ∧ Twin digest R p q' := by
  obtain ⟨g, hg, hm⟩ := loadSnapshot_merged hd h.right empty_sturdy
  refine ⟨⟨g, renew q.store⟩, ?_, ?_⟩
  · rw [restart_eq, hg]
  · have hidle : Idle (NamespaceForest.empty.loadSnapshot q.forest.snapshot).2 :=
      Idle.load (fun _ => rfl) q.forest.snapshot
    rw [hg] at hidle
    exact ⟨h.same.trans (loaded_same h.right hm), h.left, hm.sturdy, h.idleLeft, hidle, hrenew h.store⟩

theorem twin_hides (cfg : WorldKVConfig) (hd : Hash digest) (hS : Carries S R) {renew : σ → σ}
    (hrenew : ∀ {s t}, R s t → R s (renew t)) :
    Hides (Process.call (ω := ω) digest S W cfg) (Process.restart renew) plain (Rooted digest) (Twin digest R) where
  answer h c hc := h.plain hS c hc
  next h c hc := (h.call hS c hc).2
  restart h := h.restart hd hrenew

structure ReadyTwin (digest : Bytes → Bytes) (R : σ → σ → Prop) (p q : Process σ) : Prop where
  twin : Twin digest R p q
  left : AllReady p.forest
  right : AllReady q.forest

theorem call_allReady {E : List P → Prop} (hE : Publishes S E) (hf : Sturdy digest p.forest) (h : AllReady p.forest)
    {c : ProcessCall ω P L} (hc : Given E c) : AllReady (Process.call digest S W cfg p c).2.forest := by
  cases c with
  | create r c => exact h.create hf.shape r c
  | lookup r actions => exact h
  | resume now r actions w =>
    exact h.untouched hf.shape (tryFastForward_untouched S W cfg now p.forest p.store r actions w)
  | ingest r path action kvPayload latent nbytes =>
    simp only [Process.call]
    cases hn : p.forest.nodeAt r path with
    | none => exact h
    | some n =>
      simp only [Process.ingestAt]
      cases hkey : nodeKey digest (p.forest.node n).nodeKey action.bytes with
      | none => exact h
      | some key =>
        have hchained : Chained digest p.forest (Process.chunkArgs p.forest n action key kvPayload latent nbytes) :=
          ⟨hf.shape.nodeAt_lt hn, hkey, rfl⟩
        exact h.ingest hE hf hchained hn hc p.store
  | latent r path =>
    simp only [Process.call]
    cases hn : p.forest.nodeAt r path with
    | none => exact h
    | some n =>
      simp only [Process.latentAt]
      cases (p.forest.node n).skeleton with
      | none => exact h
      | some sk => exact h
  | evict r path =>
    simp only [Process.call]
    cases hn : p.forest.nodeAt r path with
    | none => exact h
    | some n => exact h.evict hf.shape p.store n

/-- One call, the eviction's answer included. -/
theorem ReadyTwin.answer (h : ReadyTwin digest R p q) (hS : Carries S R) (c : ProcessCall ω P L)
    (hc : Rooted digest c) : (Process.call digest S W cfg q c).1 = (Process.call digest S W cfg p c).1 := by
  have hsame := (@Twin.call σ ω P L digest S W cfg R p q h.twin hS c hc).1
  cases c with
  | evict r path =>
    simp only [Process.call]
    cases hn : p.forest.nodeAt r path with
    | none => rw [h.twin.same.missing hn]
    | some n =>
      obtain ⟨m, hm, ht⟩ := h.twin.at hn
      rw [hm]
      exact congrArg ProcessAnswer.evicted
        (evicted_twin ht h.left h.right h.twin.idleLeft h.twin.idleRight p.store q.store)
  | _ => exact hsame fun _ _ hne => nomatch hne

theorem ReadyTwin.restart (hd : Hash digest) {renew : σ → σ} (hrenew : ∀ {s t}, R s t → R s (renew t))
    (h : ReadyTwin digest R p q) : ∃ q', Process.restart renew q = some q' ∧ ReadyTwin digest R p q' := by
  obtain ⟨g, hg, hm⟩ := loadSnapshot_merged hd h.twin.right empty_sturdy
  obtain ⟨q', hq', htwin⟩ := h.twin.restart hd hrenew
  refine ⟨q', hq', htwin, h.left, ?_⟩
  rw [restart_eq, hg] at hq'
  rw [← Option.some.inj hq']
  exact loaded_allReady h.twin.right hm

theorem readyTwin_hides (cfg : WorldKVConfig) (hd : Hash digest) (hS : Carries S R) {E : List P → Prop}
    (hE : Publishes S E) {renew : σ → σ} (hrenew : ∀ {s t}, R s t → R s (renew t)) :
    Hides (Process.call (ω := ω) digest S W cfg) (Process.restart renew) id (fun c => Rooted digest c ∧ Given E c)
      (ReadyTwin digest R) where
  answer h c hc := h.answer hS c hc.1
  next h c hc :=
    ⟨(h.twin.call hS c hc.1).2, call_allReady hE h.twin.left h.left hc.2, call_allReady hE h.twin.right h.right hc.2⟩
  restart h := h.restart hd hrenew

end

/-- Processes that save, die and load between calls answer every call as one process that never stops would, but
for an eviction's report after a put that raised. If every payload is whole, that is the same too. -/
theorem restarts_hidden {β τ ω : Type} {digest : Bytes → Bytes} (hd : Hash digest) {B : TensorStore β τ}
    {spec : τ → TensorSpec} (hB : B.Correct spec) (W : RollingWindow ω (LayerValue τ)) (cfg : WorldKVConfig) (b : β)
    (us : List (Use (ProcessCall ω (LayerValue τ) τ))) (hus : ∀ c ∈ Use.calls us, Rooted digest c) :
    ∃ as, served (Process.call digest (tensorStoreOver B spec) W cfg) (Process.restart TensorStoreTier.renew)
        ⟨.empty, { ts := b }⟩ us = some as ∧
      as.map plain = (replies (Process.call digest (tensorStoreOver B spec) W cfg) ⟨.empty, { ts := b }⟩
        (Use.calls us)).map plain ∧
      ((∀ c ∈ Use.calls us, Given Whole c) →
        as = replies (Process.call digest (tensorStoreOver B spec) W cfg) ⟨.empty, { ts := b }⟩ (Use.calls us)) := by
  have hfresh : Backed B ({ ts := b } : TensorStoreTier β) := by
    intro key sp hsp
    cases hsp
  have htwin : Twin digest (OneBacking B) (⟨.empty, { ts := b }⟩ : Process (TensorStoreTier β)) ⟨.empty, { ts := b }⟩ :=
    empty_twin ⟨rfl, hfresh, hfresh⟩
  have hhides := twin_hides (W := W) cfg hd (oneBacking_carries hB) OneBacking.renew
  obtain ⟨as, hserved, hplain⟩ := hhides.served htwin us hus
  refine ⟨as, hserved, hplain, ?_⟩
  intro hwhole
  have hready := readyTwin_hides (W := W) cfg hd (oneBacking_carries hB) (whole_publishes B spec) OneBacking.renew
  obtain ⟨as', hserved', hsame⟩ := hready.served ⟨htwin, empty_allReady, empty_allReady⟩ us fun c hc =>
    ⟨hus c hc, hwhole c hc⟩
  rw [List.map_id, List.map_id] at hsame
  rw [hserved, Option.some.injEq] at hserved'
  rw [hserved', hsame]

def keepingWindow : RollingWindow (List (Int × LayerValue Bytes)) (LayerValue Bytes) :=
  ⟨fun w _ blobs _ => (.ok (), w ++ blobs), fun w _ => w⟩

def demoCall := Process.call marked
  (tensorStoreOver (LocalDisk.localDiskTensorStore id byteTensors) byteTensors.spec) keepingWindow ⟨2, 0, 1, .cpu⟩

def demoProcess : Process (TensorStoreTier (Dict String Bytes)) := ⟨.empty, { ts := ∅ }⟩

/-- A chunk is ingested, read in two later processes and evicted by a third. -/
def demoUses (kvPayload : List (LayerValue Bytes)) :
    List (Use (ProcessCall (List (Int × LayerValue Bytes)) (LayerValue Bytes) Bytes)) :=
  [.call (.create [1] [2]), .call (.ingest [1] [] (.int 7) kvPayload [9] 0), .restart,
    .call (.resume 0 [1] [.int 7] []), .restart, .call (.latent [1] [.int 7]), .restart,
    .call (.evict [1] [.int 7])]

set_option maxRecDepth 8000 in
theorem restarts_hidden_one_chunk :
    served demoCall (Process.restart TensorStoreTier.renew) demoProcess (demoUses [.pair (some [5]) (some [6])]) =
        some [.done, .ingested (.ok ()), .resumed (.ok 1) [(0, .pair (some [5]) (some [6]))],
          .latent (.ok (some [9])), .evicted true] ∧
      ∃ as, served demoCall (Process.restart TensorStoreTier.renew) demoProcess
          (demoUses [.pair (some [5]) none]) = some as ∧
        as.map plain =
          [.done, .ingested (.error .store), .resumed (.ok 0) [], .latent (.ok (some [9])), .done] := by
  have hcalls : ∀ kvPayload, ∀ c ∈ Use.calls (demoUses kvPayload), Rooted marked c := by
    intro kvPayload c hc
    simp only [Use.calls, demoUses, List.mem_cons, List.not_mem_nil, or_false] at hc
    rcases hc with rfl | rfl | rfl | rfl | rfl
    · exact marked_apart []
    all_goals trivial
  have hwhole : ∀ c ∈ Use.calls (demoUses [.pair (some [5]) (some [6])]), Given Whole c := by
    intro c hc
    simp only [Use.calls, demoUses, List.mem_cons, List.not_mem_nil, or_false] at hc
    rcases hc with rfl | rfl | rfl | rfl | rfl
    · trivial
    · intro v hv
      obtain rfl := List.mem_singleton.mp hv
      rfl
    all_goals trivial
  have hstore := localDisk_correct Function.injective_id byteTensors_lawful
  have hrun := fun kvPayload => restarts_hidden marked_hash hstore keepingWindow ⟨2, 0, 1, .cpu⟩ ∅ (demoUses kvPayload)
    (hcalls kvPayload)
  constructor
  · obtain ⟨as, hserved, -, hsame⟩ := hrun [.pair (some [5]) (some [6])]
    exact hserved.trans (congrArg some (hsame hwhole))
  · obtain ⟨as, hserved, hplain, -⟩ := hrun [.pair (some [5]) none]
    exact ⟨as, hserved, hplain⟩

-- A put that raised leaves a blob that only the process itself can still evict.
example :
    let p := (demoCall (demoCall demoProcess (.create [1] [2])).2
      (.ingest [1] [] (.int 7) [.pair (some [5]) none] [9] 0)).2
    (demoCall p (.evict [1] [.int 7])).1 = .evicted true ∧
      (Process.restart TensorStoreTier.renew p).map (fun q => (demoCall q (.evict [1] [.int 7])).1) =
        some (.evicted false) := by
  refine ⟨rfl, ?_⟩
  rw [restart_eq]
  rfl

end CacheSeek.Proofs.RestartHidden
