namespace CacheSeek.Lib

variable {σ τ ε : Type}

/-- The state a sequence of events leads to; `none` when one of them is not enabled. -/
def run (step : σ → ε → Option σ) (s : σ) : List ε → Option σ
  | [] => some s
  | e :: es => (step s e).bind fun s' => run step s' es

def Reachable (step : σ → ε → Option σ) (init s : σ) : Prop := ∃ es, run step init es = some s

variable {step : σ → ε → Option σ}

@[simp] theorem run_nil (s : σ) : run step s [] = some s := rfl

theorem run_cons {s t : σ} {e : ε} {es : List ε} :
    run step s (e :: es) = some t ↔ ∃ s', step s e = some s' ∧ run step s' es = some t := by
  simp only [run, Option.bind_eq_some_iff]

theorem run_append {s t : σ} {es fs : List ε} :
    run step s (es ++ fs) = some t ↔ ∃ s', run step s es = some s' ∧ run step s' fs = some t := by
  induction es generalizing s with
  | nil => simp
  | cons e es ih =>
    simp only [List.cons_append, run_cons, ih]
    constructor
    · rintro ⟨u, hu, v, hv, hf⟩
      exact ⟨v, ⟨u, hu, hv⟩, hf⟩
    · rintro ⟨v, ⟨u, hu, hv⟩, hf⟩
      exact ⟨u, hu, v, hv, hf⟩

/-- What every event preserves holds after every run. -/
theorem run_invariant {I : σ → Prop} (hstep : ∀ s e s', I s → step s e = some s' → I s')
    {s t : σ} {es : List ε} (hs : I s) (hr : run step s es = some t) : I t := by
  induction es generalizing s with
  | nil =>
    cases hr
    exact hs
  | cons e es ih =>
    obtain ⟨u, hu, hr⟩ := run_cons.mp hr
    exact ih (hstep s e u hs hu) hr

/-- The invariant rule for runs whose events are all of one kind. -/
theorem run_invariant_of {I : σ → Prop} {E : ε → Prop}
    (hstep : ∀ s e s', I s → E e → step s e = some s' → I s')
    {s t : σ} {es : List ε} (hs : I s) (he : ∀ e ∈ es, E e) (hr : run step s es = some t) : I t := by
  induction es generalizing s with
  | nil =>
    cases hr
    exact hs
  | cons e es ih =>
    obtain ⟨u, hu, hr⟩ := run_cons.mp hr
    exact ih (hstep s e u hs (he e (by simp)) hu) (fun e' h => he e' (by simp [h])) hr

theorem Reachable.init (s : σ) : Reachable step s s := ⟨[], rfl⟩

theorem Reachable.invariant {I : σ → Prop} {s t : σ}
    (hstep : ∀ s e s', I s → step s e = some s' → I s') (hs : I s) (h : Reachable step s t) : I t := by
  obtain ⟨es, hes⟩ := h
  exact run_invariant hstep hs hes

end CacheSeek.Lib
