import CacheSeek.Lib.LazyLife
import Mathlib.Algebra.Order.BigOperators.Group.List
import Mathlib.Algebra.Order.Ring.Nat

namespace CacheSeek.Lib.LazyFields
open CacheSeek.Lib

variable {θ γ α ν ε ι : Type}

def Open (s : State θ γ α ν ε) : Prop := ∀ t, (s.phase t).closes = false

def Event.opens : Event θ α ι → Bool
  | .shutdown _ => false
  | _ => true

section
variable [DecidableEq θ] [DecidableEq γ] [DecidableEq α]
variable {L : Layout γ α} {s s' : State θ γ α ν ε} {t : θ}

omit [DecidableEq γ] [DecidableEq α] in
theorem Open.move (ho : Open s) {p : Phase γ α ν ε} (hp : p.closes = false)
    (hphase : s'.phase = Function.update s.phase t p) : Open s' := by
  intro u
  rw [hphase]
  by_cases hu : u = t
  · subst u
    simpa using hp
  · simpa [Function.update_of_ne hu] using ho u

theorem Open.advance (ho : Open s) {q : Phase γ α ν ε} (hq : s.phase t = q)
    (h : Advances L s t q s') : Open s' := by
  have hopen := ho t
  rw [hq] at hopen
  cases h with
  | closeAcquire | collect | close | closedAll | reset | resetAll | closeRelease => cases hopen
  | _ => exact ho.move rfl rfl

theorem Open.step [DecidableEq ν] {build : γ → ι → Except ε (α → Option ν)} {e : Event θ α ι}
    (ho : Open s) (he : e.opens = true) (h : step L build s e = some s') : Open s' := by
  cases step_cases h with
  | get t a hf => exact ho.move rfl rfl
  | shutdown t hf => cases he
  | step t input _ h => exact ho.advance rfl h

/-- A group whose flag is set keeps its fields. -/
theorem created_advance (hs : Sound L s) (ho : Open s) {q : Phase γ α ν ε} (hq : s.phase t = q)
    (h : Advances L s t q s') {a : α} (hc : s.memory.created (L.group a) = true) :
    s'.memory.created (L.group a) = true ∧ s'.memory.value a = s.memory.value a := by
  have hk := hs.knows t
  have hopen := ho t
  rw [hq] at hk hopen
  cases h with
  | assign b w ws =>
    obtain ⟨out, hsuf, hb⟩ := hk
    have hne : L.group a ≠ L.group b := by
      intro hab
      rw [hab, hb] at hc
      cases hc
    rcases buildWrites_next hsuf with ⟨d, hd, rfl, -⟩ | ⟨rfl, -⟩
    · have had : a ≠ d := fun had => hne (by rw [had, hd])
      exact ⟨hc, Function.update_of_ne had _ _⟩
    · exact ⟨by simpa [Memory.write, Function.update_of_ne hne] using hc, rfl⟩
  | reset => cases hopen
  | _ => exact ⟨hc, rfl⟩

def Served (L : Layout γ α) (s : State θ γ α ν ε) : Phase γ α ν ε → Prop
  | .read a => s.memory.created (L.group a) = true
  | .returned a r => s.memory.created (L.group a) = true ∧ r = s.memory.value a
  | _ => True

omit [DecidableEq θ] [DecidableEq γ] [DecidableEq α] in
theorem served_keeps {p : Phase γ α ν ε} (h : Served L s p)
    (hkeep : ∀ a, s.memory.created (L.group a) = true →
      s'.memory.created (L.group a) = true ∧ s'.memory.value a = s.memory.value a) : Served L s' p := by
  cases p with
  | read a => exact (hkeep a h).1
  | returned a r => exact ⟨(hkeep a h.1).1, h.2.trans (hkeep a h.1).2.symm⟩
  | _ => trivial

theorem served_advance (hs : Sound L s) (ho : Open s) {q : Phase γ α ν ε} (hq : s.phase t = q)
    (h : Advances L s t q s') {u : θ} (hu : Served L s (s.phase u)) : Served L s' (s'.phase u) := by
  have hkeep := fun a => created_advance hs ho hq h (a := a)
  by_cases hut : u = t
  · subst u
    have hk := hs.knows t
    rw [hq] at hk hu
    cases h with
    | found a hc => simpa [Served] using hc
    | release a =>
      have : s.memory.created (L.group a) = true := hk
      simpa [Served] using this
    | read a => simpa [Served] using hu
    | _ => simp [Served]
  · have hphase : s'.phase u = s.phase u := by cases h <;> simp [Function.update_of_ne hut]
    rw [hphase]
    exact served_keeps hu hkeep

variable [DecidableEq ν] {build : γ → ι → Except ε (α → Option ν)}

theorem served_step {e : Event θ α ι} (hs : Sound L s) (ho : Open s) (he : e.opens = true)
    (h : step L build s e = some s') {u : θ} (hu : Served L s (s.phase u) ∨ ∃ a, e = .get u a) :
    Served L s' (s'.phase u) := by
  cases step_cases h with
  | get t a hf =>
    by_cases hut : u = t
    · subst u
      simp [Served]
    · rcases hu with hu | ⟨b, hb⟩
      · simp only [State.move_phase, Function.update_of_ne hut]
        exact served_keeps hu fun a hc => ⟨hc, rfl⟩
      · cases hb
        exact absurd rfl hut
  | shutdown t hf => cases he
  | step t input _ h =>
    rcases hu with hu | ⟨b, hb⟩
    · exact served_advance hs ho rfl h hu
    · cases hb

theorem served_run {es : List (Event θ α ι)} (hs : Sound L s) (ho : Open s)
    (hes : ∀ e ∈ es, e.opens = true) (h : run (step L build) s es = some s') {u : θ}
    (hu : Served L s (s.phase u) ∨ ∃ a, .get u a ∈ es) :
    Sound L s' ∧ Open s' ∧ Served L s' (s'.phase u) := by
  induction es generalizing s with
  | nil =>
    cases h
    rcases hu with hu | ⟨a, ha⟩
    · exact ⟨hs, ho, hu⟩
    · cases ha
  | cons e es ih =>
    obtain ⟨m, hm, h⟩ := run_cons.mp h
    have he := hes e (by simp)
    refine ih (hs.step hm) (ho.step he hm) (fun e' he' => hes e' (by simp [he'])) h ?_
    rcases hu with hu | ⟨a, ha⟩
    · exact .inl (served_step hs ho he hm (.inl hu))
    · rcases List.mem_cons.mp ha with rfl | ha
      · exact .inl (served_step hs ho he hm (.inr ⟨a, rfl⟩))
      · exact .inr ⟨a, ha⟩

omit [DecidableEq θ] [DecidableEq ν] in
/-- The assignments still to come leave a group alone whose flag is set. -/
theorem settled_created (hs : Sound L s) (ho : Open s) {a : α} (hc : s.memory.created (L.group a) = true) :
    s.settled.created (L.group a) = true ∧ s.settled.value a = s.memory.value a := by
  cases howner : s.owner with
  | none =>
    rw [settled_free howner]
    exact ⟨hc, rfl⟩
  | some t =>
    rw [settled_owner howner]
    have hk := hs.knows t
    have hopen := ho t
    cases hq : s.phase t with
    | assign b ws =>
      rw [hq] at hk
      obtain ⟨out, hsuf, hb⟩ := hk
      by_cases hab : L.group a = L.group b
      · rw [hab, hb] at hc
        rw [Phase.todo, List.isEmpty_iff.mp hc, writes_nil, hab, hb]
        exact ⟨hc, rfl⟩
      · have key : ∀ (us : List (Write γ α ν)) (m : Memory γ α ν),
            us <:+ L.buildWrites (L.group b) out →
            (m.writes us).created (L.group a) = m.created (L.group a) ∧
              (m.writes us).value a = m.value a := by
          intro us
          induction us with
          | nil => exact fun _ _ => ⟨rfl, rfl⟩
          | cons w us ih =>
            intro m hus
            obtain ⟨h1, h2⟩ := ih (m.write w) ((List.suffix_cons w us).trans hus)
            rw [writes_cons, h1, h2]
            rcases buildWrites_next hus with ⟨d, hd, rfl, -⟩ | ⟨rfl, -⟩
            · have had : a ≠ d := fun had => hab (by rw [had, hd])
              exact ⟨rfl, Function.update_of_ne had _ _⟩
            · exact ⟨Function.update_of_ne hab _ _, rfl⟩
        obtain ⟨h1, h2⟩ := key ws s.memory hsuf
        exact ⟨by rw [Phase.todo, h1, hc], h2⟩
    | reset ws =>
      rw [hq] at hopen
      cases hopen
    | _ => exact ⟨hc, rfl⟩

omit [DecidableEq ν] in
/-- What a step builds in a stretch without a shutdown: nothing, or one group that was not built. -/
theorem built_advance (hs : Sound L s) (ho : Open s) {q : Phase γ α ν ε} (hq : s.phase t = q)
    (h : Advances L s t q s') :
    (s'.built = s.built ∧ s'.settled = s.settled) ∨
      ∃ g out, s'.built = s.built ++ [(g, out)] ∧ s.settled.created g = false ∧
        s'.settled.created = Function.update s.settled.created g true := by
  have hhold := congrArg Phase.holds hq
  have hk := hs.knows t
  have hopen := ho t
  rw [hq] at hk hopen
  cases h with
  | found | missed | read => exact .inl ⟨rfl, settled_outside hs.guarded _ hhold⟩
  | acquire a hfree => exact .inl ⟨rfl, settled_take hfree rfl⟩
  | closeAcquire | collect | close | closedAll | reset | resetAll | closeRelease => cases hopen
  | release | abandon =>
    exact .inl ⟨rfl, settled_leave ((hs.guarded t).mp hhold) _ (congrArg Phase.todo hq)⟩
  | foundLate | missedAgain | buildRaises | assigned =>
    have howner := (hs.guarded t).mp hhold
    refine .inl ⟨rfl, ?_⟩
    rw [settled_owner howner, settled_move _ howner, hq]
    rfl
  | assign a w ws =>
    have howner := (hs.guarded t).mp hhold
    refine .inl ⟨rfl, ?_⟩
    rw [settled_owner howner, settled_move (s := { s with memory := s.memory.write w }) _ howner, hq]
    rfl
  | build a out hout hnew =>
    have howner := (hs.guarded t).mp hhold
    have hset : s.settled = s.memory := by rw [settled_owner howner, hq]; rfl
    refine .inr ⟨L.group a, out, rfl, by rw [hset]; exact hk, ?_⟩
    rw [settled_move (s := { s with built := s.built ++ [(L.group a, out)] }) _ howner, hset]
    exact buildWrites_created _ _ _ _

theorem built_step {e : Event θ α ι} (hs : Sound L s) (ho : Open s) (he : e.opens = true)
    (h : step L build s e = some s') :
    (s'.built = s.built ∧ s'.settled = s.settled) ∨
      ∃ g out, s'.built = s.built ++ [(g, out)] ∧ s.settled.created g = false ∧
        s'.settled.created = Function.update s.settled.created g true := by
  cases step_cases h with
  | get t a hf => exact .inl ⟨rfl, settled_outside hs.guarded _ (finished_outside hf)⟩
  | shutdown t hf => cases he
  | step t input _ h => exact built_advance hs ho rfl h

/-- In a stretch without a shutdown no group is built twice, and none that was built before. -/
theorem built_run {es : List (Event θ α ι)} (hs : Sound L s) (ho : Open s)
    (hes : ∀ e ∈ es, e.opens = true) (h : run (step L build) s es = some s') :
    ∃ new, s'.built = s.built ++ new ∧ (new.map Prod.fst).Nodup ∧
      ∀ g ∈ new.map Prod.fst, s.settled.created g = false := by
  induction es generalizing s with
  | nil =>
    cases h
    exact ⟨[], by simp, by simp, by simp⟩
  | cons e es ih =>
    obtain ⟨m, hm, h⟩ := run_cons.mp h
    have he := hes e (by simp)
    obtain ⟨new, hnew, hnd, hbefore⟩ :=
      ih (hs.step hm) (ho.step he hm) (fun e' he' => hes e' (by simp [he'])) h
    rcases built_step hs ho he hm with ⟨hb, hset⟩ | ⟨g, out, hb, hg, hset⟩
    · exact ⟨new, by rw [hnew, hb], hnd, by rwa [hset] at hbefore⟩
    · have hne : ∀ g' ∈ new.map Prod.fst, g' ≠ g ∧ s.settled.created g' = false := by
        intro g' hg'
        have h := hbefore g' hg'
        rw [hset] at h
        by_cases hgg : g' = g
        · simp [hgg] at h
        · exact ⟨hgg, by rwa [Function.update_of_ne hgg] at h⟩
      refine ⟨(g, out) :: new, by rw [hnew, hb]; simp, ?_, ?_⟩
      · exact List.nodup_cons.mpr ⟨fun hm => (hne g hm).1 rfl, hnd⟩
      · intro g' hg'
        rcases List.mem_cons.mp hg' with rfl | hg'
        · exact hg
        · exact (hne g' hg').2

/-- The calls of a stretch without a shutdown agree: what they return are the
fields of the one build of each group. -/
theorem calls_agree {es : List (Event θ α ι)} (hs : Sound L s) (ho : Open s)
    (hes : ∀ e ∈ es, e.opens = true) (h : run (step L build) s es = some s') {u : θ} {a b : α}
    {r : Option ν} (hu : .get u b ∈ es) (hr : s'.phase u = .returned a r) :
    r = s'.memory.value a ∧ ∃ out, (L.group a, out) ∈ s'.built ∧
      ∀ c, L.group c = L.group a → s'.memory.value c = out c := by
  obtain ⟨hs', ho', hu'⟩ := served_run hs ho hes h (.inr ⟨b, hu⟩)
  rw [hr] at hu'
  obtain ⟨hc, rfl⟩ := hu'
  obtain ⟨hset, -⟩ := settled_created hs' ho' hc
  obtain ⟨out, hm, hv⟩ := hs'.source _ hset
  refine ⟨rfl, out, hm, fun c hca => ?_⟩
  rw [← hv c hca]
  exact (settled_created hs' ho' (by rw [hca]; exact hc)).2.symm

end

namespace Phase

def rank (L : Layout γ α) : Phase γ α ν ε → Nat
  | .check a => (L.fields (L.group a)).length + 8
  | .acquire a => (L.fields (L.group a)).length + 7
  | .recheck a => (L.fields (L.group a)).length + 6
  | .build a => (L.fields (L.group a)).length + 5
  | .assign _ ws => ws.length + 3
  | .release _ => 2
  | .abandon _ => 1
  | .read _ => 1
  | .closeAcquire => 3 * L.closable.length + 5
  | .collect => 3 * L.closable.length + 4
  | .closing vs => vs.length + 2 * L.closable.length + 3
  | .reset ws => ws.length + 2
  | .closeRelease => 1
  | .idle | .returned _ _ | .raised _ | .closed => 0

end Phase

section
variable [DecidableEq θ] [DecidableEq γ] [DecidableEq α]
variable {L : Layout γ α} {s s' : State θ γ α ν ε} {t : θ}

theorem rank_advance {q : Phase γ α ν ε} (hq : s.phase t = q) (h : Advances L s t q s') :
    (s'.phase t).rank L < q.rank L ∧ ∀ u, u ≠ t → s'.phase u = s.phase u := by
  refine ⟨?_, fun u hu => by cases h <;> simp [Function.update_of_ne hu]⟩
  cases h with
  | build a out => simp [Phase.rank, Layout.buildWrites]
  | collect =>
    have := List.length_filterMap_le s.memory.value L.closable
    simp only [State.move_phase, Function.update_self, Phase.rank, Layout.handles]
    omega
  | closedAll =>
    have : (L.resetWrites : List (Write γ α ν)).length = 2 * L.closable.length := by
      simp [Layout.resetWrites, List.length_flatMap, Nat.mul_comm]
    simp [Phase.rank, this]
  | _ => simp [Phase.rank]

def State.remaining (L : Layout γ α) (ts : List θ) (s : State θ γ α ν ε) : Nat :=
  (ts.map fun t => (s.phase t).rank L).sum

theorem remaining_advance {ts : List θ} (hts : ∀ u, (s.phase u).finished = false → u ∈ ts)
    (h : Advances L s t (s.phase t) s') :
    s'.remaining L ts < s.remaining L ts ∧ ∀ u, (s'.phase u).finished = false → u ∈ ts := by
  obtain ⟨hlt, hother⟩ := rank_advance rfl h
  have ht : t ∈ ts := by
    refine hts t ?_
    generalize s.phase t = q at h
    cases h <;> rfl
  refine ⟨List.sum_lt_sum _ _ (fun u _ => ?_) ⟨t, ht, hlt⟩, fun u hu => ?_⟩
  · by_cases hut : u = t
    · subst u
      exact hlt.le
    · rw [hother u hut]
  · by_cases hut : u = t
    · exact hut ▸ ht
    · exact hts u (by rw [← hother u hut]; exact hu)

variable [DecidableEq ν] {build : γ → ι → Except ε (α → Option ν)}

/-- Whatever the order of the steps, calls in progress take no more than these. -/
theorem steps_bounded {ts : List θ} {es : List (θ × ι)} (hts : ∀ u, (s.phase u).finished = false → u ∈ ts)
    (h : run (step L build) s (es.map fun e => .step e.1 e.2) = some s') :
    es.length + s'.remaining L ts ≤ s.remaining L ts ∧ ∀ u, (s'.phase u).finished = false → u ∈ ts := by
  induction es generalizing s with
  | nil =>
    cases h
    exact ⟨by simp, hts⟩
  | cons e es ih =>
    obtain ⟨m, hm, h⟩ := run_cons.mp h
    obtain ⟨hlt, hts⟩ := remaining_advance hts (advance_cases hm)
    obtain ⟨hle, hend⟩ := ih hts h
    refine ⟨?_, hend⟩
    rw [List.length_cons]
    omega

/-- Whatever the order of the steps, a thread takes no more of them than its call still needs. -/
theorem thread_steps_bounded (t : θ) {es : List (θ × ι)}
    (h : run (step L build) s (es.map fun e => .step e.1 e.2) = some s') :
    es.countP (fun e => e.1 = t) + (s'.phase t).rank L ≤ (s.phase t).rank L := by
  induction es generalizing s with
  | nil =>
    cases h
    simp
  | cons e es ih =>
    obtain ⟨m, hm, h⟩ := run_cons.mp h
    have hle := ih h
    obtain ⟨hlt, hother⟩ := rank_advance rfl (advance_cases hm)
    rw [List.countP_cons]
    by_cases het : e.1 = t
    · rw [het] at hlt
      simp only [het, decide_true, if_true]
      omega
    · rw [hother t (Ne.symm het)] at hle
      simpa [het] using hle

/-- What a build meets outside is an answer: it raises, or hands out new handles. -/
def Accepts (L : Layout γ α) (build : γ → ι → Except ε (α → Option ν)) (s : State θ γ α ν ε) (g : γ)
    (input : ι) : Prop :=
  match build g input with
  | .error _ => True
  | .ok out => (s.builtHandles L ++ L.handles fun b => if L.group b = g then out b else none).Nodup

/-- A thread that waits for nothing but an answer of its build takes its next step. -/
theorem advance_isSome [Inhabited ι] (hans : ∀ g, ∃ input, Accepts L build s g input)
    (h : (s.phase t).finished = false) (hlock : (s.phase t).holds = true ∨ s.owner = none) :
    ∃ input, (advance L build s t input).isSome = true := by
  cases hq : s.phase t with
  | build a =>
    obtain ⟨input, hi⟩ := hans (L.group a)
    refine ⟨input, ?_⟩
    unfold Accepts at hi
    cases hb : build (L.group a) input with
    | error e => simp [advance, hq, hb]
    | ok out =>
      rw [hb] at hi
      simp only [advance, hq, hb]
      rw [if_pos hi]
      rfl
  | acquire a | closeAcquire =>
    rw [hq] at hlock
    rcases hlock with hlock | hlock
    · cases hlock
    · exact ⟨default, by simp [advance, hq, hlock]⟩
  | assign a ws | closing ws | reset ws => cases ws <;> exact ⟨default, by simp [advance, hq]⟩
  | idle | returned | raised | closed =>
    rw [hq] at h
    cases h
  | _ => exact ⟨default, by simp [advance, hq]⟩

/-- While some call is in progress, some thread takes a step. -/
theorem can_step [Inhabited ι] (hs : Sound L s) (hans : ∀ g, ∃ input, Accepts L build s g input)
    (ht : (s.phase t).finished = false) : ∃ u input s', advance L build s u input = some s' := by
  cases howner : s.owner with
  | none =>
    obtain ⟨input, h⟩ := advance_isSome hans ht (.inr howner)
    exact ⟨t, input, Option.isSome_iff_exists.mp h⟩
  | some u =>
    have hu := (hs.guarded u).mpr howner
    have hrunning : (s.phase u).finished = false := by
      rw [Bool.eq_false_iff]
      intro hf
      rw [finished_outside hf] at hu
      cases hu
    obtain ⟨input, h⟩ := advance_isSome hans hrunning (.inl hu)
    exact ⟨u, input, Option.isSome_iff_exists.mp h⟩

/-- No call is stuck: the calls in progress can all be brought to an end. -/
theorem calls_end [Inhabited ι]
    (hans : ∀ s : State θ γ α ν ε, Sound L s → ∀ g, ∃ input : ι, Accepts L build s g input) {ts : List θ}
    (hs : Sound L s) (hts : ∀ u, (s.phase u).finished = false → u ∈ ts) :
    ∃ (es : List (θ × ι)) (s' : State θ γ α ν ε),
      run (step L build) s (es.map fun e => .step e.1 e.2) = some s' ∧ ∀ u, (s'.phase u).finished = true := by
  induction hn : s.remaining L ts using Nat.strong_induction_on generalizing s with
  | h n ih =>
    by_cases hall : ∀ u, (s.phase u).finished = true
    · exact ⟨[], s, rfl, hall⟩
    · obtain ⟨t, ht⟩ := not_forall.mp hall
      obtain ⟨u, input, m, hm⟩ := can_step hs (hans s hs) (Bool.eq_false_iff.mpr ht)
      have hadv := advance_cases hm
      obtain ⟨hlt, hts'⟩ := remaining_advance hts hadv
      obtain ⟨es, s', hrun, hend⟩ := ih _ (hn ▸ hlt) (hs.advance rfl hadv) hts' rfl
      exact ⟨(u, input) :: es, s', run_cons.mpr ⟨m, hm, hrun⟩, hend⟩

end

end CacheSeek.Lib.LazyFields
