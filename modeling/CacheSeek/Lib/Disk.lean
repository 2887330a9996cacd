import CacheSeek.Lib.Dict

namespace CacheSeek.Lib

variable {β : Type}

abbrev Disk (β : Type) := Dict String (List β)

inductive FileStep (β : Type) where
  | write (path : String) (data : List β)
  | replace (src dst : String)
  | unlink (path : String)

/-- A step that is through. Replacing and unlinking are atomic. -/
def FileStep.run (d : Disk β) : FileStep β → Disk β
  | .write path data => d.set path data
  | .replace src dst =>
    match d.get? src with
    | none => d
    | some data => (d.erase src).set dst data
  | .unlink path => d.erase path

def runSteps (d : Disk β) (steps : List (FileStep β)) : Disk β := steps.foldl FileStep.run d

theorem runSteps_append (d : Disk β) (a b : List (FileStep β)) :
    runSteps d (a ++ b) = runSteps (runSteps d a) b := List.foldl_append

/-- What a crash leaves when `done` steps are through; of a write that was next there may be a first part. -/
def crashed (d : Disk β) : List (FileStep β) → Nat → Option Nat → Disk β
  | [], _, _ => d
  | .write path data :: _, 0, some k => d.set path (data.take k)
  | _ :: _, 0, _ => d
  | step :: steps, done + 1, torn => crashed (step.run d) steps done torn

theorem crashed_succ (d : Disk β) (step : FileStep β) (steps : List (FileStep β)) (done : Nat)
    (torn : Option Nat) : crashed d (step :: steps) (done + 1) torn = crashed (step.run d) steps done torn := by
  cases step with
  | write path data => cases torn <;> rfl
  | replace src dst => rfl
  | unlink path => rfl

theorem crashed_zero (d : Disk β) (steps : List (FileStep β)) (torn : Option Nat) :
    crashed d steps 0 torn = d ∨ ∃ path data rest k, steps = .write path data :: rest ∧
      crashed d steps 0 torn = d.set path (data.take k) := by
  cases steps with
  | nil => exact Or.inl rfl
  | cons step steps =>
    cases step with
    | write path data =>
      cases torn with
      | none => exact Or.inl rfl
      | some k => exact Or.inr ⟨path, data, steps, k, rfl, rfl⟩
    | replace src dst => exact Or.inl rfl
    | unlink path => exact Or.inl rfl

/-- A crash within two parts is one within the first, or within the second after the first. -/
theorem crashed_append (d : Disk β) (a b : List (FileStep β)) (done : Nat) (torn : Option Nat) :
    (∃ done', crashed d (a ++ b) done torn = crashed d a done' torn) ∨
      ∃ done', crashed d (a ++ b) done torn = crashed (runSteps d a) b done' torn := by
  induction a generalizing d done with
  | nil => exact Or.inr ⟨done, rfl⟩
  | cons step a ih =>
    cases done with
    | zero =>
      refine Or.inl ⟨0, ?_⟩
      cases step with
      | write path data => cases torn <;> rfl
      | replace src dst => rfl
      | unlink path => rfl
    | succ done =>
      rcases ih (step.run d) done with ⟨done', h⟩ | ⟨done', h⟩
      · exact Or.inl ⟨done' + 1, by rw [List.cons_append, crashed_succ, crashed_succ, h]⟩
      · exact Or.inr ⟨done', by rw [List.cons_append, crashed_succ, h]; rfl⟩

theorem crashed_unlink (d : Disk β) (path : String) (present : Bool) (done : Nat) (torn : Option Nat) :
    crashed d (if present then [.unlink path] else []) done torn = d ∨
      crashed d (if present then [.unlink path] else []) done torn =
        runSteps d (if present then [.unlink path] else []) := by
  cases present with
  | false => exact Or.inl rfl
  | true =>
    cases done with
    | zero => exact Or.inl rfl
    | succ done => exact Or.inr rfl

def SameBut (tmp : String) (d d' : Disk β) : Prop := ∀ path, path ≠ tmp → d'.get? path = d.get? path

theorem SameBut.refl (tmp : String) (d : Disk β) : SameBut tmp d d := fun _ _ => rfl

theorem SameBut.set (tmp : String) (d : Disk β) (data : List β) : SameBut tmp d (d.set tmp data) :=
  fun _ hne => Dict.get?_set_ne _ _ hne

def replaceSteps (tmp dst : String) (data : List β) : List (FileStep β) := [.write tmp data, .replace tmp dst]

theorem runSteps_replaceSteps (d : Disk β) (tmp dst : String) (data : List β) :
    SameBut tmp (d.set dst data) (runSteps d (replaceSteps tmp dst data)) := by
  have hrun : runSteps d (replaceSteps tmp dst data) = ((d.set tmp data).erase tmp).set dst data := by
    simp only [runSteps, replaceSteps, List.foldl_cons, List.foldl_nil, FileStep.run, Dict.get?_set_self]
  rw [hrun]
  intro path hne
  rw [Dict.get?_set, Dict.get?_set, Dict.get?_erase, if_neg hne, Dict.get?_set_ne _ _ hne]

/-- Whenever it crashes, the file has its old contents or the new ones. -/
theorem crashed_replaceSteps (d : Disk β) (tmp dst : String) (data : List β) (done : Nat) (torn : Option Nat) :
    SameBut tmp d (crashed d (replaceSteps tmp dst data) done torn) ∨
      SameBut tmp (d.set dst data) (crashed d (replaceSteps tmp dst data) done torn) := by
  match done with
  | 0 =>
    rcases crashed_zero d (replaceSteps tmp dst data) torn with h | ⟨path, data', rest, k, hsteps, h⟩
    · rw [h]
      exact Or.inl (SameBut.refl tmp d)
    · rw [h]
      cases hsteps
      exact Or.inl (SameBut.set tmp d _)
  | 1 => exact Or.inl (SameBut.set tmp d data)
  | done + 2 =>
    right
    have hend : crashed d (replaceSteps tmp dst data) (done + 2) torn = runSteps d (replaceSteps tmp dst data) := by
      cases done <;> rfl
    rw [hend]
    exact runSteps_replaceSteps d tmp dst data

end CacheSeek.Lib
