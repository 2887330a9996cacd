import CacheSeek.Prefix.Crashes
import CacheSeek.Proofs.FastForward
import CacheSeek.Proofs.TensorStoreLaws

namespace CacheSeek.Proofs.ColdContents
open CacheSeek.Lib CacheSeek.Prefix CacheSeek.Prefix.NamespaceForest CacheSeek.Stores
open CacheSeek.Proofs.ColdRun CacheSeek.Proofs.KeyIdentity CacheSeek.Proofs.LastPayload
open CacheSeek.Proofs.SharedForest CacheSeek.Proofs.SnapshotLoad CacheSeek.Proofs.StoreLaws
open CacheSeek.Proofs.StoreSlots CacheSeek.Proofs.FastForward CacheSeek.Proofs.TensorStoreLaws

section
variable {γ τ N C ρ β : Type} (digest : Bytes → Bytes) (torch : Torch N C ρ) (dim : TensorDim τ β)
  (E : Engine N C τ ρ β)

/-- `k` is the key of chunk `i` of the plan's sessions. -/
def KeyLeads {L : Type} (E : Engine N C L ρ β) (k : Bytes) (plan : SessionPlan C) (i : Nat) : Prop :=
  ∃ r p, Leads digest torch E r p plan i ∧ pathKey digest r p = some k

def ColdAt : Slot → τ → Prop
  | .layer k l .k, t => ∃ plan i, KeyLeads digest torch E k plan i ∧ l < E.layers plan.keys ∧
    t = dim.ofColumns (coldWrite E torch plan l i).1
  | .layer k l .v, t => ∃ plan i, KeyLeads digest torch E k plan i ∧ l < E.layers plan.keys ∧
    t = dim.ofColumns (coldWrite E torch plan l i).2
  | .layer _ _ .whole, _ => False
  | .latent k, t => ∃ plan i, KeyLeads digest torch E k plan i ∧ coldLatent E torch plan i = some t

/-- Slots may be missing; what is there is what its key stands for. -/
def Faithful (m : Contents τ) : Prop := ∀ {a t}, m a = some t → ColdAt digest torch dim E a t

def Below (m m' : Contents τ) : Prop := ∀ {a t}, m a = some t → m' a = some t

end

variable {γ γ' τ N C ρ β : Type} {digest : Bytes → Bytes} {torch : Torch N C ρ} {dim : TensorDim τ β}
  {E : Engine N C τ ρ β} {B : TensorStore γ τ} {B' : TensorStore γ' τ} {spec : τ → TensorSpec}
  {s : TensorStoreTier γ} {s' : TensorStoreTier γ'} {m m' m0 : Contents τ} {k : Bytes} {plan plan' : SessionPlan C}
  {i i' : Nat}

theorem KeyLeads.agree (hd : Hash digest) (hq : Quantized E torch digest) (h : KeyLeads digest torch E k plan i)
    (h' : KeyLeads digest torch E k plan' i') :
    i = i' ∧ plan.keys = plan'.keys ∧ coldStep E torch plan i = coldStep E torch plan' i := by
  obtain ⟨r, p, hl, hp⟩ := h
  obtain ⟨r', p', hl', hp'⟩ := h'
  obtain ⟨rfl, rfl⟩ := pathKey_inj hd.injective (sessionRoot_apart hd.injective hl.root)
    (sessionRoot_apart hd.injective hl'.root) hp hp'
  exact hl.agree hd hq hl'

/-- A slot's key leaves no choice of its tensor. -/
theorem ColdAt.unique (hd : Hash digest) (hq : Quantized E torch digest) {a : Slot} {t t' : τ}
    (h : ColdAt digest torch dim E a t) (h' : ColdAt digest torch dim E a t') : t = t' := by
  cases a with
  | latent k =>
    obtain ⟨plan, i, hk, ht⟩ := h
    obtain ⟨plan', i', hk', ht'⟩ := h'
    obtain ⟨rfl, -, hstep⟩ := hk.agree hd hq hk'
    rw [coldLatent, ← hstep] at ht'
    exact Option.some.inj (ht.symm.trans ht')
  | layer k l part =>
    cases part with
    | k =>
      obtain ⟨plan, i, hk, -, rfl⟩ := h
      obtain ⟨plan', i', hk', -, rfl⟩ := h'
      obtain ⟨rfl, -, hstep⟩ := hk.agree hd hq hk'
      simp only [coldWrite, hstep]
    | v =>
      obtain ⟨plan, i, hk, -, rfl⟩ := h
      obtain ⟨plan', i', hk', -, rfl⟩ := h'
      obtain ⟨rfl, -, hstep⟩ := hk.agree hd hq hk'
      simp only [coldWrite, hstep]
    | whole => exact h.elim

theorem Below.refl (m : Contents τ) : Below m m := id

theorem Below.trans (h : Below m0 m) (h' : Below m m') : Below m0 m' := fun ha => h' (h ha)

/-- More of the same contents: what the forest says of the store is still so. -/
theorem truthful_below {g : NamespaceForest} (h : Truthful digest (tensorStoreOver B spec) torch dim E g s)
    (hm : Holds B spec s m) (hm' : Holds B' spec s' m') (hle : Below m m') :
    Truthful digest (tensorStoreOver B' spec) torch dim E g s' := by
  refine ⟨h.sturdy, h.attached, ?_⟩
  intro r p n b hn hb
  obtain ⟨plan, i, hl, hloc, hlayers, hblob, hsk, latent, hlat, hhas⟩ := h.chunk hn hb
  refine ⟨plan, i, hl, hloc, hlayers, ?_, hsk, latent, hlat, ?_⟩
  · intro b' hb' l p hp
    have hread := hblob b' hb' l p hp
    have hslots : layerOf m (g.node n).nodeKey l = p :=
      Except.ok.inj ((getLayer_holds hm hb' l).1.symm.trans hread)
    obtain ⟨x, y, rfl⟩ := coldPayload_paired plan i p (List.mem_of_getElem? hp)
    refine ((getLayer_holds hm' hb' l).1).trans (congrArg Except.ok ?_)
    unfold layerOf at hslots ⊢
    cases hk : m (.layer (g.node n).nodeKey l .k) with
    | some k =>
      simp only [hk, LayerValue.pair.injEq, Option.some.injEq] at hslots
      rw [hle hk, hle hslots.2, hslots.1]
    | none =>
      -- without the keys there is no pair
      cases hw : m (.layer (g.node n).nodeKey l .whole) with
      | none => simp [hk, hw] at hslots
      | some t => simp [hk, hw] at hslots
  · have hslot : m (.latent (g.node n).nodeKey) = some latent :=
      Except.ok.inj ((getOne_holds hm (.latent (g.node n).nodeKey)).1.symm.trans hhas)
    exact (getOne_holds hm' (.latent (g.node n).nodeKey)).1.trans (congrArg Except.ok (hle hslot))

/-- A read at any key, also at none of the manager's. -/
theorem getOne_keeps (h : Holds B spec s m) (key : String) : Holds B spec (s.getOne B key).2 m := by
  by_cases hkey : ∃ a : Slot, key = a.key
  · obtain ⟨a, rfl⟩ := hkey
    exact (getOne_holds h a).2
  · have hne : ∀ a : Slot, a.key ≠ key := fun a he => hkey ⟨a, he.symm⟩
    have hnote : ∀ sp, Holds B spec { s with specs := s.specs.set key sp } m := by
      intro sp
      refine ⟨?_, ?_, h.sidecar, h.tensor⟩
      · intro a ha
        rw [Dict.get?_set_ne _ _ (hne a)]
        exact h.absent a ha
      · intro a t ha
        rw [Dict.get?_set_ne _ _ (hne a)]
        exact h.cached a t ha
    cases hsp : s.specs.get? key with
    | some sp =>
      simp only [TensorStoreTier.getOne, hsp]
      exact h
    | none =>
      cases hraw : B.get s.ts (key ++ ":spec") with
      | none =>
        simp only [TensorStoreTier.getOne, hsp, hraw]
        exact h
      | some raw =>
        cases hof : TensorSpec.ofText raw with
        | error e =>
          simp only [TensorStoreTier.getOne, hsp, hraw, hof]
          exact h
        | ok sp =>
          simp only [TensorStoreTier.getOne, hsp, hraw, hof]
          exact hnote sp

theorem getOne_ts (s : TensorStoreTier γ) (key : String) : (s.getOne B key).2.ts = s.ts := by
  cases hsp : s.specs.get? key with
  | some sp => simp only [TensorStoreTier.getOne, hsp]
  | none =>
    cases hraw : B.get s.ts (key ++ ":spec") with
    | none => simp only [TensorStoreTier.getOne, hsp, hraw]
    | some raw =>
      cases hof : TensorSpec.ofText raw with
      | error e => simp only [TensorStoreTier.getOne, hsp, hraw, hof]
      | ok sp => simp only [TensorStoreTier.getOne, hsp, hraw, hof]

/-- A tensor without its sidecar yet: the slot is missing still, or it had this tensor. -/
theorem putTensor_holds (hB : B.Correct spec) (h : Holds B spec s m) {a : Slot} {t : τ}
    (hm : m a = none ∨ m a = some t) : Holds B spec { s with ts := B.putTensor s.ts a.key t } m := by
  have hget : ∀ b : Slot, B.get (B.putTensor s.ts a.key t) (b.key ++ ":spec") = B.get s.ts (b.key ++ ":spec") :=
    fun b => hB.get_putTensor _ _ _ _ (Slot.key_ne_spec a b).symm
  refine ⟨?_, h.cached, ?_, ?_⟩
  · intro b hb
    exact ⟨(h.absent b hb).1, (hget b).trans (h.absent b hb).2⟩
  · exact fun b u hb => (hget b).trans (h.sidecar b u hb)
  · intro b u hb
    by_cases he : b = a
    · rw [he] at hb ⊢
      rcases hm with hm | hm
      · rw [hm] at hb
        cases hb
      · rw [hm, Option.some.injEq] at hb
        rw [hb]
        exact hB.getTensor_self _ _ _
    · exact (hB.getTensor_other _ _ _ _ _ fun hk => he (Slot.key_injective hk)).trans (h.tensor b u hb)

theorem recorded_correct (hB : B.Correct spec) : (recorded B).Correct spec where
  getTensor_self b := hB.getTensor_self b.1
  getTensor_other b := hB.getTensor_other b.1
  getTensor_put b := hB.getTensor_put b.1
  get_self b := hB.get_self b.1
  get_other b := hB.get_other b.1
  get_putTensor b := hB.get_putTensor b.1

/-- What holds of an instance whatever is read, and whatever is put where it belongs. -/
structure Guarded (digest : Bytes → Bytes) (torch : Torch N C ρ) (dim : TensorDim τ β) (E : Engine N C τ ρ β)
    (B : TensorStore γ τ) (spec : τ → TensorSpec) (I : TensorStoreTier γ → Prop) : Prop where
  read : ∀ {s} key, I s → I (s.getOne B key).2
  put : ∀ {s a t}, I s → ColdAt digest torch dim E a t → I (s.putOne B spec a.key (some t)).2

/-- An instance has `m` or more, and nothing that is wrong. -/
def Has (digest : Bytes → Bytes) (torch : Torch N C ρ) (dim : TensorDim τ β) (E : Engine N C τ ρ β)
    (B : TensorStore γ τ) (spec : τ → TensorSpec) (m : Contents τ) (s : TensorStoreTier γ) : Prop :=
  ∃ m', Holds B spec s m' ∧ Faithful digest torch dim E m' ∧ Below m m'

theorem Has.renew (h : Has digest torch dim E B spec m s) : Has digest torch dim E B spec m { ts := s.ts } := by
  obtain ⟨m', hm, hf, hle⟩ := h
  exact ⟨m', hm.renew, hf, hle⟩

section
variable (hd : Hash digest) (hq : Quantized E torch digest) (hB : B.Correct spec)
include hd hq

theorem below_update (hf : Faithful digest torch dim E m) {a : Slot} {t : τ} (ha : ColdAt digest torch dim E a t) :
    Faithful digest torch dim E (Function.update m a (some t)) ∧ Below m (Function.update m a (some t)) := by
  refine ⟨?_, ?_⟩
  · intro b u hb
    by_cases he : b = a
    · rw [he, Function.update_self, Option.some.injEq] at hb
      rw [he, ← hb]
      exact ha
    · rw [Function.update_of_ne he] at hb
      exact hf hb
  · intro b u hb
    by_cases he : b = a
    · rw [he] at hb ⊢
      rw [Function.update_self, (hf hb).unique hd hq ha]
    · rw [Function.update_of_ne he]
      exact hb

include hB

theorem has_guarded (m : Contents τ) : Guarded digest torch dim E B spec (Has digest torch dim E B spec m) where
  read key := by
    rintro ⟨m', hm, hf, hle⟩
    exact ⟨m', getOne_keeps hm key, hf, hle⟩
  put {s a t} := by
    rintro ⟨m', hm, hf, hle⟩ ha
    obtain ⟨hf', hle'⟩ := below_update hd hq hf ha
    exact ⟨_, putOne_holds hB hm a t, hf', hle.trans hle'⟩

/-- The instance over the recorded store, and every state on record, as a new instance finds it. -/
theorem records_guarded (m : Contents τ) : Guarded digest torch dim E (recorded B) spec fun s =>
    Has digest torch dim E (recorded B) spec m s ∧
      ∀ ts ∈ s.ts.2, Has digest torch dim E B spec m { ts := ts } where
  read key h := by
    refine ⟨(has_guarded hd hq (recorded_correct hB) m).read key h.1, ?_⟩
    rw [getOne_ts]
    exact h.2
  put {s a t} h ha := by
    obtain ⟨⟨m', hm, hf, hle⟩, hpast⟩ := h
    have hnow : Holds B spec { s with ts := s.ts.1 } m' := ⟨hm.absent, hm.cached, hm.sidecar, hm.tensor⟩
    have hcase : m' a = none ∨ m' a = some t := by
      cases hma : m' a with
      | none => exact Or.inl rfl
      | some u => exact Or.inr (congrArg some ((hf hma).unique hd hq ha))
    obtain ⟨hf', hle'⟩ := below_update hd hq hf ha
    refine ⟨⟨_, putOne_holds (recorded_correct hB) hm a t, hf', hle.trans hle'⟩, ?_⟩
    intro ts hts
    simp only [TensorStoreTier.putOne, recorded, List.mem_append, List.mem_singleton] at hts
    rcases hts with (hts | rfl) | rfl
    · exact hpast ts hts
    · exact ⟨m', (putTensor_holds hB hnow hcase).renew, hf, hle⟩
    · exact ⟨_, (putOne_holds hB hnow a t).renew, hf', hle.trans hle'⟩

end

end CacheSeek.Proofs.ColdContents
