import CacheSeek.Lib.LazyFields
import Mathlib.Data.List.Induction

namespace CacheSeek.Lib.LazyFields
open CacheSeek.Lib

variable {θ γ α ν ε ι : Type}

section
variable [DecidableEq γ] [DecidableEq α]
variable (m : Memory γ α ν) (L : Layout γ α)

@[simp] theorem writes_nil : m.writes [] = m := rfl

@[simp] theorem writes_cons (w : Write γ α ν) (ws : List (Write γ α ν)) :
    m.writes (w :: ws) = (m.write w).writes ws := rfl

@[simp] theorem writes_append (ws us : List (Write γ α ν)) :
    m.writes (ws ++ us) = (m.writes ws).writes us := by
  simp only [Memory.writes, List.foldl_append]

theorem writes_values (out : α → Option ν) (l : List α) :
    (m.writes (l.map fun a => .value a (out a))).created = m.created ∧
      ∀ a, (m.writes (l.map fun a => .value a (out a))).value a =
        if a ∈ l then out a else m.value a := by
  induction l generalizing m with
  | nil => simp
  | cons b l ih =>
    obtain ⟨hc, hv⟩ := ih (m.write (.value b (out b)))
    refine ⟨hc, fun a => ?_⟩
    rw [List.map_cons, writes_cons, hv]
    simp only [Memory.write, List.mem_cons]
    by_cases hl : a ∈ l
    · simp [hl]
    · by_cases hb : a = b
      · subst a
        simp [hl]
      · simp [hl, hb]

theorem buildWrites_value (g : γ) (out : α → Option ν) (a : α) :
    (m.writes (L.buildWrites g out)).value a = if L.group a = g then out a else m.value a := by
  simp only [Layout.buildWrites, writes_append, writes_cons, writes_nil, Memory.write,
    (writes_values m out (L.fields g)).2, L.mem_fields]

theorem buildWrites_created (g : γ) (out : α → Option ν) :
    (m.writes (L.buildWrites g out)).created = Function.update m.created g true := by
  simp only [Layout.buildWrites, writes_append, writes_cons, writes_nil, Memory.write,
    (writes_values m out (L.fields g)).1]

theorem resets (l : List α) :
    (∀ a, (m.writes (l.flatMap fun a => [.value a none, .created (L.group a) false])).value a =
        if a ∈ l then none else m.value a) ∧
      ∀ g, (m.writes (l.flatMap fun a => [.value a none, .created (L.group a) false])).created g =
        if ∃ a ∈ l, L.group a = g then false else m.created g := by
  induction l generalizing m with
  | nil => simp
  | cons b l ih =>
    obtain ⟨hv, hc⟩ := ih ((m.write (.value b none)).write (.created (L.group b) false))
    constructor
    · intro a
      rw [List.flatMap_cons, writes_append, writes_cons, writes_cons, writes_nil, hv]
      simp only [Memory.write, List.mem_cons]
      by_cases hl : a ∈ l
      · simp [hl]
      · by_cases hb : a = b <;> simp [hl, hb]
    · intro g
      rw [List.flatMap_cons, writes_append, writes_cons, writes_cons, writes_nil, hc]
      simp only [Memory.write, List.mem_cons]
      by_cases hl : ∃ a ∈ l, L.group a = g
      · simp [hl]
      · by_cases hb : g = L.group b
        · subst g
          simp
        · simp [hl, hb, Ne.symm hb]

theorem resetWrites_value (a : α) :
    (m.writes L.resetWrites).value a = if a ∈ L.closable then none else m.value a := (resets m L L.closable).1 a

theorem resetWrites_created (g : γ) :
    (m.writes L.resetWrites).created g =
      if ∃ a ∈ L.closable, L.group a = g then false else m.created g := (resets m L L.closable).2 g

omit [DecidableEq γ] [DecidableEq α] in
/-- The next assignment of a build is to a field of its group, or sets the flag and is the last. -/
theorem buildWrites_next {L : Layout γ α} {g : γ} {out : α → Option ν} {w : Write γ α ν}
    {ws : List (Write γ α ν)} (h : (w :: ws) <:+ L.buildWrites g out) :
    (∃ b, L.group b = g ∧ w = .value b (out b) ∧ ws ≠ []) ∨ (w = .created g true ∧ ws = []) := by
  have key : ∀ l : List α, (∀ b ∈ l, L.group b = g) →
      (w :: ws) <:+ l.map (fun a => Write.value a (out a)) ++ [.created g true] →
      (∃ b, L.group b = g ∧ w = .value b (out b) ∧ ws ≠ []) ∨ (w = .created g true ∧ ws = []) := by
    intro l hl hs
    induction l with
    | nil =>
      rcases List.suffix_cons_iff.mp hs with he | hs
      · cases he
        exact .inr ⟨rfl, rfl⟩
      · exact absurd (List.suffix_nil.mp hs) (by simp)
    | cons b l ih =>
      rcases List.suffix_cons_iff.mp hs with he | hs
      · cases he
        exact .inl ⟨b, hl b (by simp), rfl, by simp⟩
      · exact ih (fun b hb => hl b (by simp [hb])) hs
  exact key _ (fun b hb => L.mem_fields.mp hb) h

end

/-- Two ways to fill fields that never fill the same field, taken together. -/
theorem handles_override (L : Layout γ α) (f f' h : α → Option ν)
    (hf : ∀ a ∈ L.closable, h a = (f a).or (f' a)) (hd : ∀ a ∈ L.closable, f a = none ∨ f' a = none) :
    (L.handles h).Perm (L.handles f ++ L.handles f') := by
  unfold Layout.handles
  generalize L.closable = l at hf hd
  induction l with
  | nil => exact .nil
  | cons a l ih =>
    have ih := ih (fun b hb => hf b (by simp [hb])) (fun b hb => hd b (by simp [hb]))
    have ha := hf a (by simp)
    cases hfa : f a with
    | none =>
      rw [hfa, Option.none_or] at ha
      cases hfa' : f' a with
      | none => simpa [ha, hfa, hfa'] using ih
      | some v =>
        simp only [List.filterMap_cons, ha, hfa, hfa']
        exact (ih.cons v).trans List.perm_middle.symm
    | some v =>
      rw [hfa, Option.some_or] at ha
      have hfa' : f' a = none := by
        rcases hd a (by simp) with h | h
        · rw [hfa] at h
          cases h
        · exact h
      simp only [List.filterMap_cons, ha, hfa, hfa']
      exact ih.cons v

def Phase.toClose : Phase γ α ν ε → Option (List ν)
  | .closing vs => some vs
  | _ => none

section
variable [DecidableEq γ] [DecidableEq α]

/-- Memory as it will be when the owner of the lock has made its assignments. -/
def State.settled (s : State θ γ α ν ε) : Memory γ α ν :=
  match s.owner with
  | none => s.memory
  | some t => s.memory.writes (s.phase t).todo

/-- The handles in use: those in memory, or those that a shutdown has still to close. -/
def State.held (L : Layout γ α) (s : State θ γ α ν ε) : List ν :=
  ((s.owner.bind fun t => (s.phase t).toClose)).getD (L.handles s.settled.value)

def Knows (L : Layout γ α) (s : State θ γ α ν ε) : Phase γ α ν ε → Prop
  | .build a => s.memory.created (L.group a) = false
  | .assign a ws => ∃ out, ws <:+ L.buildWrites (L.group a) out ∧
      s.memory.created (L.group a) = ws.isEmpty
  | .release a => s.memory.created (L.group a) = true
  | _ => True

/-- The invariant: a group that is not built has empty fields, the fields of one
that is built come from one build, and each handle built is in use or released. -/
structure Sound (L : Layout γ α) (s : State θ γ α ν ε) : Prop where
  guarded : Guarded s
  knows : ∀ t, Knows L s (s.phase t)
  blank : ∀ a, s.settled.created (L.group a) = false → s.settled.value a = none
  source : ∀ g, s.settled.created g = true →
    ∃ out, (g, out) ∈ s.built ∧ ∀ a, L.group a = g → s.settled.value a = out a
  accounted : (s.builtHandles L).Perm (s.released ++ s.held L)
  fresh : (s.builtHandles L).Nodup

variable {L : Layout γ α} {s s' : State θ γ α ν ε} {t : θ}

/-- While a thread holds the lock, its pending writes count as done. -/
theorem settled_owner (h : s.owner = some t) : s.settled = s.memory.writes (s.phase t).todo := by
  simp only [State.settled, h]

theorem settled_free (h : s.owner = none) : s.settled = s.memory := by
  simp only [State.settled, h]

theorem held_owner (h : s.owner = some t) :
    s.held L = (s.phase t).toClose.getD (L.handles s.settled.value) := by
  simp only [State.held, h, Option.bind_some]

theorem held_free (h : s.owner = none) : s.held L = L.handles s.settled.value := by
  simp only [State.held, h, Option.bind_none, Option.getD_none]

omit [DecidableEq γ] [DecidableEq α] in
/-- Outside the lock nothing is known of the memory. -/
theorem knows_outside {p : Phase γ α ν ε} (h : p.holds = false) : Knows L s p := by
  cases p with
  | build | assign | release => cases h
  | _ => trivial

theorem init_sound : Sound L (State.init θ γ α ν ε) where
  guarded := fun t => by simp [State.init, Phase.holds]
  knows := fun t => trivial
  blank := fun a _ => rfl
  source := fun g h => by cases h
  accounted := by
    rw [held_free rfl]
    simp [State.builtHandles, State.init, settled_free, Layout.handles]
  fresh := by simp [State.builtHandles, State.init]

/-- A step after which memory will settle the same way, with the same handles. -/
theorem Sound.same (hs : Sound L s) (hg : Guarded s') (hk : ∀ u, Knows L s' (s'.phase u))
    (hset : s'.settled = s.settled) (hb : s'.built = s.built) (hc : s'.released = s.released)
    (hh : s'.held L = s.held L) : Sound L s' where
  guarded := hg
  knows := hk
  blank := by
    rw [hset]
    exact hs.blank
  source := by
    rw [hset, hb]
    exact hs.source
  accounted := by
    rw [hc, hh, State.builtHandles, hb]
    exact hs.accounted
  fresh := by
    rw [State.builtHandles, hb]
    exact hs.fresh

variable [DecidableEq θ]

theorem settled_move (p : Phase γ α ν ε) (h : s.owner = some t) :
    (s.move t p).settled = s.memory.writes p.todo := by
  rw [settled_owner (s := s.move t p) h]
  simp

theorem held_move (p : Phase γ α ν ε) (h : s.owner = some t) :
    (s.move t p).held L = p.toClose.getD (L.handles (s.memory.writes p.todo).value) := by
  rw [held_owner (s := s.move t p) h, settled_move p h]
  simp

/-- What the threads know after a step of a thread outside the guarded part. -/
theorem Sound.knows_outside (hs : Sound L s) {p : Phase γ α ν ε} (hm : s'.memory = s.memory)
    (hp : s'.phase = Function.update s.phase t p) (hk : Knows L s' p) (u : θ) :
    Knows L s' (s'.phase u) := by
  rw [hp]
  by_cases hu : u = t
  · subst u
    simpa using hk
  · rw [Function.update_of_ne hu]
    have h := hs.knows u
    cases hq : s.phase u with
    | build | assign | release =>
      rw [hq] at h
      simpa only [Knows, hm] using h
    | _ => trivial

/-- What the threads know after a step of the owner. -/
theorem Sound.knows_owner (hs : Sound L s) {p : Phase γ α ν ε} (ht : (s.phase t).holds = true)
    (hp : s'.phase = Function.update s.phase t p) (hk : Knows L s' p) (u : θ) :
    Knows L s' (s'.phase u) := by
  rw [hp]
  by_cases hu : u = t
  · subst u
    simpa using hk
  · rw [Function.update_of_ne hu]
    refine LazyFields.knows_outside (Bool.eq_false_iff.mpr fun h => hu ?_)
    exact hs.guarded.only ht h

omit [DecidableEq γ] [DecidableEq α] [DecidableEq θ] in
theorem Guarded.other (hg : Guarded s) (ht : (s.phase t).holds = false) {u : θ} (hu : s.owner = some u) :
    u ≠ t := by
  rintro rfl
  rw [(hg u).mpr hu] at ht
  cases ht

theorem settled_outside (hg : Guarded s) (p : Phase γ α ν ε) (ht : (s.phase t).holds = false) :
    (s.move t p).settled = s.settled := by
  cases ho : s.owner with
  | none => rw [settled_free ho, settled_free (s := s.move t p) ho, State.move_memory]
  | some u =>
    rw [settled_owner ho, settled_owner (s := s.move t p) ho]
    simp [Function.update_of_ne (hg.other ht ho)]

/-- Taking the lock settles nothing new. -/
theorem settled_take (hfree : s.owner = none) {p : Phase γ α ν ε} (htodo : p.todo = []) :
    ({ s with owner := some t }.move t p).settled = s.settled := by
  rw [settled_free hfree, settled_move (s := { s with owner := some t }) p rfl, htodo]
  rfl

/-- A thread leaves the lock with nothing left to write. -/
theorem settled_leave (ho : s.owner = some t) (p : Phase γ α ν ε) (htodo : (s.phase t).todo = []) :
    ({ s with owner := none }.move t p).settled = s.settled := by
  rw [settled_owner ho, settled_free (s := State.move _ t p) rfl, htodo]
  rfl

/-- A step of a thread that neither holds the lock before nor after. -/
theorem Sound.outside (hs : Sound L s) {p : Phase γ α ν ε} (ht : (s.phase t).holds = false)
    (hp : p.holds = false) : Sound L (s.move t p) := by
  have hset := settled_outside hs.guarded p ht
  refine hs.same (hs.guarded.keep rfl rfl (hp.trans ht.symm))
    (hs.knows_outside rfl rfl (LazyFields.knows_outside hp)) hset rfl rfl ?_
  cases ho : s.owner with
  | none => rw [held_free ho, held_free (s := s.move t p) ho, hset]
  | some u =>
    rw [held_owner ho, held_owner (s := s.move t p) ho, hset]
    simp [Function.update_of_ne (hs.guarded.other ht ho)]

/-- The lock is taken by a thread with no assignment at hand. -/
theorem Sound.take (hs : Sound L s) (hfree : s.owner = none) {p : Phase γ α ν ε} (hp : p.holds = true)
    (hk : ∀ s' : State θ γ α ν ε, Knows L s' p) (htodo : p.todo = []) (hclose : p.toClose = none) :
    Sound L ({ s with owner := some t }.move t p) := by
  have hset := settled_take (t := t) hfree htodo
  refine hs.same (hs.guarded.take hfree rfl rfl hp) (hs.knows_outside rfl rfl (hk _)) hset rfl rfl ?_
  rw [held_free hfree, held_move (s := { s with owner := some t }) p rfl, hclose, htodo, settled_free hfree]
  rfl

/-- The lock is released by a thread that has made its assignments. -/
theorem Sound.leave (hs : Sound L s) {p : Phase γ α ν ε} (ht : (s.phase t).holds = true)
    (htodo : (s.phase t).todo = []) (hclose : (s.phase t).toClose = none) (hp : p.holds = false) :
    Sound L ({ s with owner := none }.move t p) := by
  have ho := (hs.guarded t).mp ht
  have hset := settled_leave ho p htodo
  refine hs.same (hs.guarded.leave ht rfl rfl hp) (hs.knows_owner ht rfl (LazyFields.knows_outside hp))
    hset rfl rfl ?_
  rw [held_owner ho, held_free (s := State.move _ t p) rfl, hset, hclose, Option.getD_none]

/-- The owner makes an assignment, or none. -/
theorem Sound.assign (hs : Sound L s) {p : Phase γ α ν ε} {m : Memory γ α ν}
    (ht : (s.phase t).holds = true) (hp : p.holds = true)
    (hset : m.writes p.todo = s.memory.writes (s.phase t).todo)
    (hclose : p.toClose.getD (L.handles s.settled.value) = s.held L)
    (hk : Knows L { s with memory := m } p) : Sound L ({ s with memory := m }.move t p) := by
  have ho := (hs.guarded t).mp ht
  have hset : ({ s with memory := m }.move t p).settled = s.settled := by
    rw [settled_owner ho, settled_move (s := { s with memory := m }) p ho]
    exact hset
  refine hs.same (hs.guarded.keep rfl rfl (hp.trans ht.symm)) (hs.knows_owner ht rfl ?_) hset rfl rfl ?_
  · cases p with
    | build | assign | release => exact hk
    | _ => trivial
  · rw [held_owner (s := State.move { s with memory := m } t p) ho, hset, ← hclose]
    simp

/-- The new handles must differ from those built before. -/
theorem Sound.build (hs : Sound L s) {a : α} {out : α → Option ν} (hq : s.phase t = .build a)
    (hout : ∀ b, L.group b ≠ L.group a → out b = none)
    (hnew : (s.builtHandles L ++ L.handles out).Nodup) :
    Sound L ({ s with built := s.built ++ [(L.group a, out)] }.move t
      (.assign a (L.buildWrites (L.group a) out))) := by
  have ht : (s.phase t).holds = true := by rw [hq]; rfl
  have ho := (hs.guarded t).mp ht
  have hmiss : s.memory.created (L.group a) = false := by simpa [hq, Knows] using hs.knows t
  have hsettled : s.settled = s.memory := by rw [settled_owner ho, hq]; rfl
  generalize hs' : ({ s with built := s.built ++ [(L.group a, out)] } : State θ γ α ν ε).move t
    (.assign a (L.buildWrites (L.group a) out)) = s'
  have hset : s'.settled = s.memory.writes (L.buildWrites (L.group a) out) := by
    subst s'
    exact settled_move (s := { s with built := s.built ++ [(L.group a, out)] }) _ ho
  have hhandles : s'.builtHandles L = s.builtHandles L ++ L.handles out := by
    subst s'
    simp [State.builtHandles]
  have hblank : ∀ b, L.group b = L.group a → s.memory.value b = none := by
    intro b hb
    have h := hs.blank b
    rw [hsettled, hb] at h
    exact h hmiss
  refine ⟨?_, ?_, ?_, ?_, ?_, by rw [hhandles]; exact hnew⟩
  · subst s'
    exact hs.guarded.keep rfl rfl ht.symm
  · subst s'
    refine hs.knows_owner ht rfl ⟨out, List.suffix_rfl, ?_⟩
    simp [Layout.buildWrites, hmiss]
  · intro b hb
    rw [hset, buildWrites_created] at hb
    rw [hset, buildWrites_value]
    have hne : L.group b ≠ L.group a := fun h => by simp [h] at hb
    rw [Function.update_of_ne hne] at hb
    rw [if_neg hne, ← hsettled]
    exact hs.blank b (by rw [hsettled]; exact hb)
  · intro g hg
    rw [hset, buildWrites_created] at hg
    by_cases hga : g = L.group a
    · subst hga
      refine ⟨out, by subst s'; simp, fun b hb => ?_⟩
      rw [hset, buildWrites_value, if_pos hb]
    · rw [Function.update_of_ne hga] at hg
      obtain ⟨out', hm, hv⟩ := hs.source g (by rw [hsettled]; exact hg)
      refine ⟨out', by subst s'; simp [hm], fun b hb => ?_⟩
      rw [hset, buildWrites_value, if_neg (by rw [hb]; exact hga), ← hsettled]
      exact hv b hb
  · have hheld : s'.held L = L.handles s'.settled.value := by
      subst s'
      rw [hset]
      exact held_move (s := { s with built := s.built ++ [(L.group a, out)] }) _ ho
    have hold : s.held L = L.handles s.memory.value := by
      rw [held_owner ho, hq, hsettled]
      rfl
    have hjoin := handles_override L s.memory.value out s'.settled.value
      (fun b _ => by
        rw [hset, buildWrites_value]
        by_cases hb : L.group b = L.group a
        · simp [hb, hblank b hb]
        · simp [hb, hout b hb])
      (fun b _ => by
        by_cases hb : L.group b = L.group a
        · exact .inl (hblank b hb)
        · exact .inr (hout b hb))
    have hreleased : s'.released = s.released := by subst s'; rfl
    rw [hhandles, hreleased, hheld]
    have h := hs.accounted
    rw [hold] at h
    refine (h.append_right _).trans ?_
    rw [List.append_assoc]
    exact hjoin.symm.append_left _

/-- One handle at a time moves from held to released. -/
theorem Sound.close (hs : Sound L s) {v : ν} {vs : List ν} (hq : s.phase t = .closing (v :: vs)) :
    Sound L ({ s with released := s.released ++ [v] }.move t (.closing vs)) := by
  have ht : (s.phase t).holds = true := by rw [hq]; rfl
  have ho := (hs.guarded t).mp ht
  have hset : ({ s with released := s.released ++ [v] }.move t (.closing vs)).settled = s.settled := by
    rw [settled_owner ho, hq]
    exact settled_move (s := { s with released := s.released ++ [v] }) _ ho
  refine ⟨hs.guarded.keep rfl rfl ht.symm, hs.knows_owner ht rfl trivial, ?_, ?_, ?_, hs.fresh⟩
  · rw [hset]
    exact hs.blank
  · rw [hset]
    exact hs.source
  · have h := hs.accounted
    rw [held_owner ho, hq] at h
    rw [held_move (s := { s with released := s.released ++ [v] }) _ ho]
    simpa [Phase.toClose, State.builtHandles] using h

theorem Sound.clear (hs : Sound L s) (hq : s.phase t = .closing []) :
    Sound L (s.move t (.reset L.resetWrites)) := by
  have ht : (s.phase t).holds = true := by rw [hq]; rfl
  have ho := (hs.guarded t).mp ht
  have hsettled : s.settled = s.memory := by rw [settled_owner ho, hq]; rfl
  have hset : (s.move t (.reset L.resetWrites)).settled = s.memory.writes L.resetWrites :=
    settled_move _ ho
  refine ⟨hs.guarded.keep rfl rfl ht.symm, hs.knows_owner ht rfl trivial, ?_, ?_, ?_, hs.fresh⟩
  · intro a ha
    rw [hset, resetWrites_created] at ha
    rw [hset, resetWrites_value]
    split
    · rfl
    · rename_i hc
      have hno : ¬ ∃ b ∈ L.closable, L.group b = L.group a := by
        rintro ⟨b, hb, hab⟩
        exact hc (L.closable_group hb hab.symm)
      rw [if_neg hno] at ha
      rw [← hsettled]
      exact hs.blank a (by rw [hsettled]; exact ha)
  · intro g hg
    rw [hset, resetWrites_created] at hg
    split at hg
    · cases hg
    · rename_i hno
      obtain ⟨out, hm, hv⟩ := hs.source g (by rw [hsettled]; exact hg)
      refine ⟨out, hm, fun a ha => ?_⟩
      rw [hset, resetWrites_value, if_neg (fun hc => hno ⟨a, hc, ha⟩), ← hsettled]
      exact hv a ha
  · have hnone : L.handles (s.memory.writes L.resetWrites).value = ([] : List ν) := by
      refine List.filterMap_eq_nil_iff.mpr fun a ha => ?_
      rw [resetWrites_value, if_pos ha]
    have h := hs.accounted
    rw [held_owner ho, hq] at h
    rw [held_move _ ho]
    simpa [Phase.toClose, Phase.todo, hnone, State.builtHandles] using h

/-- An assignment of an owner that is not closing handles. -/
theorem Sound.assignOpen (hs : Sound L s) {q p : Phase γ α ν ε} {m : Memory γ α ν} (hq : s.phase t = q)
    (hhq : q.holds = true) (hhp : p.holds = true) (hcq : q.toClose = none) (hcp : p.toClose = none)
    (hset : m.writes p.todo = s.memory.writes q.todo) (hk : Knows L { s with memory := m } p) :
    Sound L ({ s with memory := m }.move t p) := by
  subst hq
  refine hs.assign hhq hhp hset ?_ hk
  rw [held_owner ((hs.guarded t).mp hhq), hcq, hcp]

theorem Sound.advance (hs : Sound L s) {q : Phase γ α ν ε} (hq : s.phase t = q)
    (h : Advances L s t q s') : Sound L s' := by
  have hhold := congrArg Phase.holds hq
  have hk := hs.knows t
  rw [hq] at hk
  cases h with
  | found | missed | read => exact hs.outside hhold rfl
  | acquire a hfree => exact hs.take hfree rfl (fun _ => trivial) rfl rfl
  | closeAcquire hfree => exact hs.take hfree rfl (fun _ => trivial) rfl rfl
  | release | abandon | closeRelease =>
    exact hs.leave hhold (congrArg Phase.todo hq) (congrArg Phase.toClose hq) rfl
  | foundLate a hc => exact hs.assignOpen hq rfl rfl rfl rfl rfl hc
  | missedAgain a hc => exact hs.assignOpen hq rfl rfl rfl rfl rfl hc
  | buildRaises a e => exact hs.assignOpen hq rfl rfl rfl rfl rfl trivial
  | build a out hout hnew => exact hs.build hq hout hnew
  | assign a w ws =>
    refine hs.assignOpen hq rfl rfl rfl rfl rfl ?_
    obtain ⟨out, hsuf, hc⟩ := hk
    refine ⟨out, (List.suffix_cons w ws).trans hsuf, ?_⟩
    rcases buildWrites_next hsuf with ⟨b, hb, rfl, hws⟩ | ⟨rfl, rfl⟩
    · simpa [Memory.write, List.isEmpty_eq_false_iff.mpr hws] using hc
    · simp [Memory.write]
  | assigned a =>
    refine hs.assignOpen hq rfl rfl rfl rfl rfl ?_
    obtain ⟨out, -, hc⟩ := hk
    exact hc
  | collect =>
    have ho := (hs.guarded t).mp hhold
    refine hs.assign hhold rfl (by rw [hq]; rfl) ?_ trivial
    rw [held_owner ho, settled_owner ho, hq]
    rfl
  | close v vs => exact hs.close hq
  | closedAll => exact hs.clear hq
  | reset w ws => exact hs.assignOpen hq rfl rfl rfl rfl rfl trivial
  | resetAll => exact hs.assignOpen hq rfl rfl rfl rfl rfl trivial

omit [DecidableEq γ] [DecidableEq α] [DecidableEq θ] in
theorem finished_outside {p : Phase γ α ν ε} (h : p.finished = true) : p.holds = false := by
  cases p with
  | idle | returned | raised | closed => rfl
  | _ => cases h

theorem Sound.step [DecidableEq ν] {build : γ → ι → Except ε (α → Option ν)} {e : Event θ α ι}
    (hs : Sound L s) (h : step L build s e = some s') : Sound L s' := by
  cases step_cases h with
  | get t a hf => exact hs.outside (finished_outside hf) rfl
  | shutdown t hf => exact hs.outside (finished_outside hf) rfl
  | step t input _ h => exact hs.advance rfl h

/-- By the step lemma, in every interleaving. -/
theorem sound_of_reachable [DecidableEq ν] {build : γ → ι → Except ε (α → Option ν)}
    (h : Reachable (step L build) (State.init θ γ α ν ε) s) : Sound L s :=
  h.invariant (fun _ _ _ hs hstep => hs.step hstep) init_sound

/-- In a history from the start, a thread built the group `g` and met `input` outside. -/
def Builds (L : Layout γ α) [DecidableEq ν] (build : γ → ι → Except ε (α → Option ν)) (es : List (Event θ α ι))
    (g : γ) (input : ι) (out : α → Option ν) : Prop :=
  ∃ past t rest s a, es = past ++ .step t input :: rest ∧
    run (step L build) (State.init θ γ α ν ε) past = some s ∧ s.phase t = .build a ∧ L.group a = g ∧
      build g input = .ok out

variable [DecidableEq ν] {build : γ → ι → Except ε (α → Option ν)}

theorem Builds.append {es : List (Event θ α ι)} {g : γ} {input : ι} {out : α → Option ν}
    (h : Builds L build es g input out) (fs : List (Event θ α ι)) : Builds L build (es ++ fs) g input out := by
  obtain ⟨past, t, rest, s, a, rfl, h⟩ := h
  exact ⟨past, t, rest ++ fs, s, a, by simp, h⟩

theorem built_advance_gave {input : ι} (h : advance L build s t input = some s') :
    s'.built = s.built ∨ ∃ a out, s.phase t = .build a ∧ build (L.group a) input = .ok out ∧
      s'.built = s.built ++ [(L.group a, fun b => if L.group b = L.group a then out b else none)] := by
  have hadv := advance_cases h
  generalize hq : s.phase t = q at hadv
  cases hadv with
  | build a out _ _ =>
    simp only [advance, hq] at h
    cases hb : build (L.group a) input with
    | error e =>
      rw [hb] at h
      have := congrArg State.built (Option.some.inj h)
      simp at this
    | ok out' =>
      rw [hb] at h
      dsimp only at h
      split at h
      · have hbuilt := congrArg State.built (Option.some.inj h)
        exact .inr ⟨a, out', rfl, hb, hbuilt.symm⟩
      · cases h
  | _ => exact .inl rfl

/-- What is built was built in some step of the history. -/
theorem builds_of_built {es : List (Event θ α ι)}
    (h : run (step L build) (State.init θ γ α ν ε) es = some s) {g : γ} {given : α → Option ν}
    (hb : (g, given) ∈ s.built) :
    ∃ input out, Builds L build es g input out ∧ given = fun a => if L.group a = g then out a else none := by
  induction es using List.reverseRecOn generalizing s with
  | nil =>
    cases h
    cases hb
  | append_singleton es e ih =>
    obtain ⟨m, hm, he⟩ := run_append.mp h
    obtain ⟨s', hstep, hend⟩ := run_cons.mp he
    cases hend
    have hold : (g, given) ∈ m.built →
        ∃ input out, Builds L build (es ++ [e]) g input out ∧
          given = fun a => if L.group a = g then out a else none := by
      intro hb
      obtain ⟨input, out, hbuilds, hgiven⟩ := ih hm hb
      exact ⟨input, out, hbuilds.append [e], hgiven⟩
    cases step_cases hstep with
    | get | shutdown => exact hold hb
    | step t input _ _ =>
      rcases built_advance_gave hstep with hsame | ⟨a, out, hphase, hout, hnew⟩
      · exact hold (hsame ▸ hb)
      · rw [hnew] at hb
        rcases List.mem_append.mp hb with hb | hb
        · exact hold hb
        · cases List.mem_singleton.mp hb
          exact ⟨input, out, ⟨es, t, [], m, a, rfl, hm, hphase, rfl, hout⟩, rfl⟩

end

end CacheSeek.Lib.LazyFields
