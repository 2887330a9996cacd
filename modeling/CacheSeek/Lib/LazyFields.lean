import CacheSeek.Lib.Run
import Mathlib.Data.List.Perm.Basic
import Mathlib.Data.List.Nodup
import Mathlib.Logic.Function.Basic

namespace CacheSeek.Lib.LazyFields
open CacheSeek.Lib

/-- The fields of an object that builds them on first use, in groups. A flag for each group tells that its
fields are built. A reader looks at the flag without the lock, takes the one lock if the group is not built,
looks again, builds, assigns the fields and then sets the flag. A shutdown goes through the handles of the
closable fields under the lock, and clears these fields and their flags, one assignment after the other;
groups are cleared as a whole. -/
structure Layout (γ α : Type) where
  group : α → γ
  fields : γ → List α
  closable : List α
  mem_fields : ∀ {a g}, a ∈ fields g ↔ group a = g
  closable_group : ∀ {a b}, a ∈ closable → group b = group a → b ∈ closable

inductive Write (γ α ν : Type) where
  | value (a : α) (v : Option ν)
  | created (g : γ) (b : Bool)

structure Memory (γ α ν : Type) where
  created : γ → Bool
  value : α → Option ν

/-- Where a thread is. From `recheck` to `release` or `abandon`, and from
`collect` to `closeRelease`, it holds the lock. -/
inductive Phase (γ α ν ε : Type) where
  | idle
  | check (a : α)
  | acquire (a : α)
  | recheck (a : α)
  | build (a : α)
  | assign (a : α) (todo : List (Write γ α ν))
  | release (a : α)
  | abandon (e : ε)
  | read (a : α)
  | returned (a : α) (r : Option ν)
  | raised (e : ε)
  | closeAcquire
  | collect
  | closing (todo : List ν)
  | reset (todo : List (Write γ α ν))
  | closeRelease
  | closed

/-- `built` are the builds that succeeded and `released` the handles that a shutdown
has gone through, both in order. -/
structure State (θ γ α ν ε : Type) where
  owner : Option θ
  memory : Memory γ α ν
  phase : θ → Phase γ α ν ε
  built : List (γ × (α → Option ν))
  released : List ν

/-- A thread calls a getter or the shutdown, or takes its next step. `input` is
what a build meets outside. -/
inductive Event (θ α ι : Type) where
  | get (t : θ) (a : α)
  | shutdown (t : θ)
  | step (t : θ) (input : ι)

variable {θ γ α ν ε ι : Type}

namespace Phase

def holds : Phase γ α ν ε → Bool
  | .recheck _ | .build _ | .assign _ _ | .release _ | .abandon _ => true
  | .collect | .closing _ | .reset _ | .closeRelease => true
  | _ => false

def finished : Phase γ α ν ε → Bool
  | .idle | .returned _ _ | .raised _ | .closed => true
  | _ => false

def closes : Phase γ α ν ε → Bool
  | .closeAcquire | .collect | .closing _ | .reset _ | .closeRelease => true
  | _ => false

def todo : Phase γ α ν ε → List (Write γ α ν)
  | .assign _ ws => ws
  | .reset ws => ws
  | _ => []

end Phase

section
variable [DecidableEq γ] [DecidableEq α]

def Memory.write (m : Memory γ α ν) : Write γ α ν → Memory γ α ν
  | .value a v => { m with value := Function.update m.value a v }
  | .created g b => { m with created := Function.update m.created g b }

def Memory.writes (m : Memory γ α ν) (ws : List (Write γ α ν)) : Memory γ α ν := ws.foldl Memory.write m

end

namespace Layout

def buildWrites (L : Layout γ α) (g : γ) (out : α → Option ν) : List (Write γ α ν) :=
  (L.fields g).map (fun a => .value a (out a)) ++ [.created g true]

def resetWrites (L : Layout γ α) : List (Write γ α ν) :=
  L.closable.flatMap fun a => [.value a none, .created (L.group a) false]

def handles (L : Layout γ α) (value : α → Option ν) : List ν := L.closable.filterMap value

end Layout

namespace State

def init (θ γ α ν ε : Type) : State θ γ α ν ε where
  owner := none
  memory := ⟨fun _ => false, fun _ => none⟩
  phase := fun _ => .idle
  built := []
  released := []

def builtHandles (L : Layout γ α) (s : State θ γ α ν ε) : List ν := s.built.flatMap fun b => L.handles b.2

variable [DecidableEq θ]

def move (s : State θ γ α ν ε) (t : θ) (p : Phase γ α ν ε) : State θ γ α ν ε :=
  { s with phase := Function.update s.phase t p }

section
variable (s : State θ γ α ν ε) (t u : θ) (p : Phase γ α ν ε)

@[simp] theorem move_owner : (s.move t p).owner = s.owner := rfl
@[simp] theorem move_memory : (s.move t p).memory = s.memory := rfl
@[simp] theorem move_built : (s.move t p).built = s.built := rfl
@[simp] theorem move_released : (s.move t p).released = s.released := rfl
@[simp] theorem move_phase : (s.move t p).phase = Function.update s.phase t p := rfl

end

end State

section
variable [DecidableEq θ] [DecidableEq γ] [DecidableEq α] [DecidableEq ν]

/-- The next step of thread `t`; `none` while it waits for the lock or is in no
call. A build hands out handles that no build handed out before. -/
def advance (L : Layout γ α) (build : γ → ι → Except ε (α → Option ν)) (s : State θ γ α ν ε) (t : θ)
    (input : ι) : Option (State θ γ α ν ε) :=
  match s.phase t with
  | .check a => some (s.move t (if s.memory.created (L.group a) then .read a else .acquire a))
  | .acquire a => if s.owner.isNone then some ({ s with owner := some t }.move t (.recheck a)) else none
  | .recheck a => some (s.move t (if s.memory.created (L.group a) then .release a else .build a))
  | .build a =>
    match build (L.group a) input with
    | .error e => some (s.move t (.abandon e))
    | .ok out =>
      let out := fun b => if L.group b = L.group a then out b else none
      if (s.builtHandles L ++ L.handles out).Nodup then
        some ({ s with built := s.built ++ [(L.group a, out)] }.move t (.assign a (L.buildWrites (L.group a) out)))
      else none
  | .assign a (w :: ws) => some ({ s with memory := s.memory.write w }.move t (.assign a ws))
  | .assign a [] => some (s.move t (.release a))
  | .release a => some ({ s with owner := none }.move t (.read a))
  | .abandon e => some ({ s with owner := none }.move t (.raised e))
  | .read a => some (s.move t (.returned a (s.memory.value a)))
  | .closeAcquire => if s.owner.isNone then some ({ s with owner := some t }.move t .collect) else none
  | .collect => some (s.move t (.closing (L.handles s.memory.value)))
  | .closing (v :: vs) => some ({ s with released := s.released ++ [v] }.move t (.closing vs))
  | .closing [] => some (s.move t (.reset L.resetWrites))
  | .reset (w :: ws) => some ({ s with memory := s.memory.write w }.move t (.reset ws))
  | .reset [] => some (s.move t .closeRelease)
  | .closeRelease => some ({ s with owner := none }.move t .closed)
  | .idle | .returned _ _ | .raised _ | .closed => none

def step (L : Layout γ α) (build : γ → ι → Except ε (α → Option ν)) (s : State θ γ α ν ε) :
    Event θ α ι → Option (State θ γ α ν ε)
  | .get t a => if (s.phase t).finished then some (s.move t (.check a)) else none
  | .shutdown t => if (s.phase t).finished then some (s.move t .closeAcquire) else none
  | .step t input => advance L build s t input

end

section
variable [DecidableEq θ] [DecidableEq γ] [DecidableEq α]
variable (L : Layout γ α) (s : State θ γ α ν ε) (t : θ)

/-- The next step of a thread, with a case for each way it can go. -/
inductive Advances : Phase γ α ν ε → State θ γ α ν ε → Prop
  | found (a : α) (h : s.memory.created (L.group a) = true) : Advances (.check a) (s.move t (.read a))
  | missed (a : α) (h : s.memory.created (L.group a) = false) : Advances (.check a) (s.move t (.acquire a))
  | acquire (a : α) (h : s.owner = none) :
      Advances (.acquire a) ({ s with owner := some t }.move t (.recheck a))
  | foundLate (a : α) (h : s.memory.created (L.group a) = true) :
      Advances (.recheck a) (s.move t (.release a))
  | missedAgain (a : α) (h : s.memory.created (L.group a) = false) :
      Advances (.recheck a) (s.move t (.build a))
  | buildRaises (a : α) (e : ε) : Advances (.build a) (s.move t (.abandon e))
  | build (a : α) (out : α → Option ν) (hout : ∀ b, L.group b ≠ L.group a → out b = none)
      (hnew : (s.builtHandles L ++ L.handles out).Nodup) :
      Advances (.build a) ({ s with built := s.built ++ [(L.group a, out)] }.move t
        (.assign a (L.buildWrites (L.group a) out)))
  | assign (a : α) (w : Write γ α ν) (ws : List (Write γ α ν)) :
      Advances (.assign a (w :: ws)) ({ s with memory := s.memory.write w }.move t (.assign a ws))
  | assigned (a : α) : Advances (.assign a []) (s.move t (.release a))
  | release (a : α) : Advances (.release a) ({ s with owner := none }.move t (.read a))
  | abandon (e : ε) : Advances (.abandon e) ({ s with owner := none }.move t (.raised e))
  | read (a : α) : Advances (.read a) (s.move t (.returned a (s.memory.value a)))
  | closeAcquire (h : s.owner = none) :
      Advances .closeAcquire ({ s with owner := some t }.move t .collect)
  | collect : Advances .collect (s.move t (.closing (L.handles s.memory.value)))
  | close (v : ν) (vs : List ν) :
      Advances (.closing (v :: vs)) ({ s with released := s.released ++ [v] }.move t (.closing vs))
  | closedAll : Advances (.closing []) (s.move t (.reset L.resetWrites))
  | reset (w : Write γ α ν) (ws : List (Write γ α ν)) :
      Advances (.reset (w :: ws)) ({ s with memory := s.memory.write w }.move t (.reset ws))
  | resetAll : Advances (.reset []) (s.move t .closeRelease)
  | closeRelease : Advances .closeRelease ({ s with owner := none }.move t .closed)

variable {L s t}

theorem advance_cases [DecidableEq ν] {build : γ → ι → Except ε (α → Option ν)} {input : ι}
    {s' : State θ γ α ν ε} (h : advance L build s t input = some s') : Advances L s t (s.phase t) s' := by
  unfold advance at h
  generalize s.phase t = p at h
  cases p with
  | idle | returned | raised | closed => cases h
  | check a =>
    cases hc : s.memory.created (L.group a) with
    | true =>
      simp only [hc, ↓reduceIte, Option.some.injEq] at h
      exact h ▸ .found a hc
    | false =>
      simp only [hc, Bool.false_eq_true, ↓reduceIte, Option.some.injEq] at h
      exact h ▸ .missed a hc
  | acquire a =>
    simp only [Option.isNone_iff_eq_none] at h
    split at h
    · rename_i ho
      cases h
      exact .acquire a ho
    · cases h
  | recheck a =>
    cases hc : s.memory.created (L.group a) with
    | true =>
      simp only [hc, ↓reduceIte, Option.some.injEq] at h
      exact h ▸ .foundLate a hc
    | false =>
      simp only [hc, Bool.false_eq_true, ↓reduceIte, Option.some.injEq] at h
      exact h ▸ .missedAgain a hc
  | build a =>
    cases hb : build (L.group a) input with
    | error e =>
      simp only [hb, Option.some.injEq] at h
      exact h ▸ .buildRaises a e
    | ok out =>
      simp only [hb] at h
      split at h
      · rename_i hnew
        cases h
        exact .build a _ (fun b hb => if_neg hb) hnew
      · cases h
  | assign a ws =>
    cases ws with
    | nil =>
      cases h
      exact .assigned a
    | cons w ws =>
      cases h
      exact .assign a w ws
  | release a =>
    cases h
    exact .release a
  | abandon e =>
    cases h
    exact .abandon e
  | read a =>
    cases h
    exact .read a
  | closeAcquire =>
    simp only [Option.isNone_iff_eq_none] at h
    split at h
    · rename_i ho
      cases h
      exact .closeAcquire ho
    · cases h
  | collect =>
    cases h
    exact .collect
  | closing vs =>
    cases vs with
    | nil =>
      cases h
      exact .closedAll
    | cons v vs =>
      cases h
      exact .close v vs
  | reset ws =>
    cases ws with
    | nil =>
      cases h
      exact .resetAll
    | cons w ws =>
      cases h
      exact .reset w ws
  | closeRelease =>
    cases h
    exact .closeRelease

inductive Steps (L : Layout γ α) (s : State θ γ α ν ε) : Event θ α ι → State θ γ α ν ε → Prop
  | get (t : θ) (a : α) (h : (s.phase t).finished = true) : Steps L s (.get t a) (s.move t (.check a))
  | shutdown (t : θ) (h : (s.phase t).finished = true) : Steps L s (.shutdown t) (s.move t .closeAcquire)
  | step (t : θ) (input : ι) (s' : State θ γ α ν ε) (h : Advances L s t (s.phase t) s') :
      Steps L s (.step t input) s'

theorem step_cases [DecidableEq ν] {build : γ → ι → Except ε (α → Option ν)} {e : Event θ α ι}
    {s' : State θ γ α ν ε} (h : step L build s e = some s') : Steps L s e s' := by
  cases e with
  | get t a =>
    simp only [step] at h
    split at h
    · rename_i hf
      cases h
      exact .get t a hf
    · cases h
  | shutdown t =>
    simp only [step] at h
    split at h
    · rename_i hf
      cases h
      exact .shutdown t hf
    · cases h
  | step t input => exact .step t input s' (advance_cases h)

end

/-- The owner of the lock is the one thread in the guarded part of a call. -/
def Guarded (s : State θ γ α ν ε) : Prop := ∀ t, (s.phase t).holds = true ↔ s.owner = some t

section
variable [DecidableEq θ]
variable {s s' : State θ γ α ν ε} {t : θ} {p : Phase γ α ν ε}

theorem Guarded.keep (hg : Guarded s) (ho : s'.owner = s.owner)
    (hp : s'.phase = Function.update s.phase t p) (hh : p.holds = (s.phase t).holds) : Guarded s' := by
  intro u
  rw [ho, hp, ← hg u]
  by_cases hu : u = t
  · subst u
    simp [hh]
  · simp [Function.update_of_ne hu]

theorem Guarded.take (hg : Guarded s) (hfree : s.owner = none) (ho : s'.owner = some t)
    (hp : s'.phase = Function.update s.phase t p) (hh : p.holds = true) : Guarded s' := by
  intro u
  rw [ho, hp]
  by_cases hu : u = t
  · subst u
    simp [hh]
  · have hno : ¬ (s.phase u).holds = true := by simp [hg u, hfree]
    simp [Function.update_of_ne hu, hno, Ne.symm hu]

theorem Guarded.leave (hg : Guarded s) (hold : (s.phase t).holds = true) (ho : s'.owner = none)
    (hp : s'.phase = Function.update s.phase t p) (hh : p.holds = false) : Guarded s' := by
  intro u
  rw [ho, hp]
  by_cases hu : u = t
  · subst u
    simp [hh]
  · have hown := (hg t).mp hold
    have hno : ¬ (s.phase u).holds = true := by
      rw [hg u, hown]
      simpa using Ne.symm hu
    simp [Function.update_of_ne hu, hno]

omit [DecidableEq θ] in
theorem Guarded.only (hg : Guarded s) {u : θ} (ht : (s.phase t).holds = true)
    (hu : (s.phase u).holds = true) : u = t := by
  have h := (hg u).mp hu
  rw [(hg t).mp ht] at h
  exact (Option.some.inj h).symm

end

end CacheSeek.Lib.LazyFields
