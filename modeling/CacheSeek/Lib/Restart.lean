namespace CacheSeek.Lib

variable {σ ι α β : Type}

/-- What is done with a system: it is called, or one that it left behind takes its place. -/
inductive Use (ι : Type) where
  | call (c : ι)
  | restart

def Use.calls : List (Use ι) → List ι
  | [] => []
  | .call c :: us => c :: calls us
  | .restart :: us => calls us

def replies (call : σ → ι → α × σ) (s : σ) : List ι → List α
  | [] => []
  | c :: cs => (call s c).1 :: replies call (call s c).2 cs

/-- The answers with restarts in between; `none` when one of them fails. -/
def served (call : σ → ι → α × σ) (restart : σ → Option σ) (s : σ) : List (Use ι) → Option (List α)
  | [] => some []
  | .call c :: us => (served call restart (call s c).2 us).map fun as => (call s c).1 :: as
  | .restart :: us => (restart s).bind fun s => served call restart s us

/-- `R` ties two states whose answers look alike to `see`. Every call allowed by `E` keeps the tie,
and so does a restart of the second system. -/
structure Hides (call : σ → ι → α × σ) (restart : σ → Option σ) (see : α → β) (E : ι → Prop) (R : σ → σ → Prop) :
    Prop where
  answer : ∀ {s t}, R s t → ∀ c, E c → see (call t c).1 = see (call s c).1
  next : ∀ {s t}, R s t → ∀ c, E c → R (call s c).2 (call t c).2
  restart : ∀ {s t}, R s t → ∃ t', restart t = some t' ∧ R s t'

/-- Restarts succeed, and `see` cannot tell them from the answers. -/
theorem Hides.served {call : σ → ι → α × σ} {restart : σ → Option σ} {see : α → β} {E : ι → Prop}
    {R : σ → σ → Prop} (h : Hides call restart see E R) {s t : σ} (hR : R s t) (us : List (Use ι))
    (hE : ∀ c ∈ Use.calls us, E c) :
    ∃ as, served call restart t us = some as ∧ as.map see = (replies call s (Use.calls us)).map see := by
  induction us generalizing s t with
  | nil => exact ⟨[], rfl, rfl⟩
  | cons u us ih =>
    cases u with
    | call c =>
      have hc : E c := hE c (by simp [Use.calls])
      obtain ⟨as, hserved, hseen⟩ := ih (h.next hR c hc) fun d hd => hE d (by simp [Use.calls, hd])
      refine ⟨(call t c).1 :: as, by simp only [Lib.served, hserved, Option.map_some], ?_⟩
      simp only [Use.calls, replies, List.map_cons, hseen, h.answer hR c hc]
    | restart =>
      obtain ⟨t', ht', hR'⟩ := h.restart hR
      simp only [Lib.served, Use.calls, ht', Option.bind_some]
      exact ih hR' hE

end CacheSeek.Lib
