import CacheSeek.Lib.Lists
import CacheSeek.Service.Lifecycle
import Mathlib.Data.List.Basic

namespace CacheSeek.Proofs.SaveLife
open CacheSeek.Lib CacheSeek.Service CacheService

/-- A save goes on without touching its slot, the queue or the worker; the number counts
the runs this starts. `odd` says what may go wrong. -/
inductive InPlace (cfg : ServiceConfig) (odd : Oddity → Prop) : SavePhase → SavePhase → Nat → Prop
  | full (hblock : cfg.onFull ≠ .block) : InPlace cfg odd .reserved .full 0
  | sync (hsync : cfg.onFull = .sync) : InPlace cfg odd .full (.running .sync) 1
  | direct (hasync : cfg.asyncSave = false) : InPlace cfg odd .reserved (.running .direct) 1
  | suspend (r : Runner) (hodd : odd .suspends) : InPlace cfg odd (.running r) (.fallback r) 1
  | finish (r : Runner) (ending : Ending) (hodd : ending = .baseException → odd .fatal) :
      InPlace cfg odd (.running r) (.ended r ending) 0
  | finishFallback (r : Runner) : InPlace cfg odd (.fallback r) (.ended r .returned) 0

inductive NextPhase (cfg : ServiceConfig) (odd : Oddity → Prop) : SavePhase → SavePhase → Nat → Prop
  | reserve : NextPhase cfg odd .called .reserved 0
  | put (hasync : cfg.asyncSave = true) : NextPhase cfg odd .reserved .queued 0
  | take (r : Runner) (hr : r = .worker ∨ r = .flush) : NextPhase cfg odd .queued (.running r) 1
  | inPlace {p p' : SavePhase} {n : Nat} (h : InPlace cfg odd p p' n) : NextPhase cfg odd p p' n
  | drop (hpolicy : cfg.onFull = .drop ∨ cfg.onFull = .downgrade) : NextPhase cfg odd .full .dropped 0
  | release (r : Runner) (ending : Ending) : NextPhase cfg odd (.ended r ending) .released 0

inductive Moved (cfg : ServiceConfig) (odd : Oddity → Prop) (c : SaveCall) : SaveCall → Prop
  | phase {p : SavePhase} {n : Nat} (h : NextPhase cfg odd c.phase p n) : Moved cfg odd c ⟨p, c.runs + n, c.returned⟩
  | ret (hdone : c.phase.callerDone = true) : Moved cfg odd c { c with returned := true }

inductive Stepped (cfg : ServiceConfig) (odd : Oddity → Prop) (s : CacheService) : CacheService → Prop
  | same : Stepped cfg odd s s
  | called : Stepped cfg odd s { s with calls := s.calls ++ [⟨.called, 0, false⟩] }
  | reserve {i : Nat} {c : SaveCall} (hc : s.calls[i]? = some c) (hp : c.phase = .called) :
      Stepped cfg odd s (s.reserveVectorUpdate.setCall i { c with phase := .reserved })
  | put {i : Nat} {c : SaveCall} (hc : s.calls[i]? = some c) (hp : c.phase = .reserved)
      (hasync : cfg.asyncSave = true) :
      Stepped cfg odd s ({ s with queue := s.queue ++ [i] }.setCall i { c with phase := .queued })
  | inPlace {i : Nat} {c : SaveCall} {p : SavePhase} {n : Nat} (hc : s.calls[i]? = some c)
      (h : InPlace cfg odd c.phase p n) : Stepped cfg odd s (s.setCall i ⟨p, c.runs + n, c.returned⟩)
  | drop {i : Nat} {c : SaveCall} (hc : s.calls[i]? = some c) (hp : c.phase = .full)
      (hpolicy : cfg.onFull = .drop ∨ cfg.onFull = .downgrade) :
      Stepped cfg odd s (s.releaseVectorUpdate.setCall i { c with phase := .dropped })
  | release {i : Nat} {c : SaveCall} (r : Runner) (ending : Ending) (hc : s.calls[i]? = some c)
      (hp : c.phase = .ended r ending) :
      Stepped cfg odd s ((s.releaseVectorUpdate.proceed r ending).setCall i { c with phase := .released })
  | ret {i : Nat} {c : SaveCall} (hc : s.calls[i]? = some c) (hdone : c.phase.callerDone = true) :
      Stepped cfg odd s (s.setCall i { c with returned := true })
  | takeWorker {i : Nat} {c : SaveCall} {queue : List Nat} (hw : s.worker = .getting) (hq : s.queue = i :: queue)
      (hc : s.calls[i]? = some c) :
      Stepped cfg odd s { { s with queue := queue }.setCall i (c.start .worker) with worker := .running i }
  | takeFlush {i : Nat} {c : SaveCall} {queue : List Nat} (hd : s.shutdown = .flushing) (hq : s.queue = i :: queue)
      (hc : s.calls[i]? = some c) :
      Stepped cfg odd s { { s with queue := queue }.setCall i (c.start .flush) with shutdown := .running i }
  | lookup : Stepped cfg odd s { s with lookups := s.lookups ++ [⟨s.returnedCalls, .waiting⟩] }
  | pass {l : Nat} {k : LookupCall} (hk : s.lookups[l]? = some k) (hidle : s.idle = true) :
      Stepped cfg odd s { s with lookups := s.lookups.set l { k with pc := .passed } }
  | timeout {l : Nat} {k : LookupCall} (hk : s.lookups[l]? = some k) :
      Stepped cfg odd s { s with lookups := s.lookups.set l { k with pc := .timedOut } }
  | worker (w : WorkerPc) (hw : s.worker = .checking ∨ s.worker = .getting) (hw' : ∀ i, w ≠ .running i)
      (hstop : w = .exited → s.stop = true) :
      Stepped cfg odd s { s with worker := w }
  | shutdown (stop : Bool) (d : ShutdownPc) (hstop : s.stop = true → stop = true) (hd : s.shutdown = .notCalled)
      (hd' : d = .joining ∨ (cfg.asyncSave = false ∧ d = .returned)) :
      Stepped cfg odd s { s with stop := stop, shutdown := d, returnedBefore := s.returnedCalls }
  | join (hd : s.shutdown = .joining) (hw : s.worker = .exited) :
      Stepped cfg odd s { s with shutdown := if cfg.flushOnShutdown then .flushing else .returned }
  | joinTimeout (hd : s.shutdown = .joining) (hodd : odd .late) : Stepped cfg odd s { s with shutdown := .returned }
  | flushed (hd : s.shutdown = .flushing) (hq : s.queue = []) : Stepped cfg odd s { s with shutdown := .returned }

def started : SavePhase → Bool
  | .running _ => true
  | .fallback _ => true
  | .ended _ _ => true
  | .released => true
  | _ => false

theorem NextPhase.started {cfg : ServiceConfig} {odd : Oddity → Prop} {p p' : SavePhase} {n : Nat}
    (h : NextPhase cfg odd p p' n)
    (hp : SaveLife.started p' = true) : SaveLife.started p = true ∨ 0 < n := by
  cases h with
  | inPlace h => cases h <;> simp_all [SaveLife.started]
  | _ => simp_all [SaveLife.started]

/-- An end is an end. -/
theorem NextPhase.not_over {cfg : ServiceConfig} {odd : Oddity → Prop} {p p' : SavePhase} {n : Nat}
    (h : NextPhase cfg odd p p' n) :
    p ≠ .released ∧ p ≠ .dropped := by
  cases h with
  | inPlace h => cases h <;> simp
  | _ => simp

theorem InPlace.facts {cfg : ServiceConfig} {odd : Oddity → Prop} {p p' : SavePhase} {n : Nat}
    (h : InPlace cfg odd p p' n) :
    p.holdsSlot = true ∧ p'.holdsSlot = true ∧ p ≠ .queued ∧ p' ≠ .queued ∧
      (p'.runner = some .worker ↔ p.runner = some .worker) ∧ (p'.runner = some .flush ↔ p.runner = some .flush) ∧
      (p.callerDone = true → p'.callerDone = true) := by
  cases h <;> simp [SavePhase.holdsSlot, SavePhase.runner, SavePhase.callerDone]

section
variable {cfg : ServiceConfig} {odd : Oddity → Prop}

/-- The save is over, and the strategy's save was run, or it was dropped. -/
def Settled (c : SaveCall) : Prop := (c.phase = .released ∧ 0 < c.runs) ∨ c.phase = .dropped

theorem Moved.returned {c c' : SaveCall} (h : Moved cfg odd c c') (hret : c.returned = true) : c'.returned = true := by
  cases h with
  | phase h => exact hret
  | ret hdone => rfl

theorem Moved.settled {c c' : SaveCall} (h : Moved cfg odd c c') (hc : Settled c) : Settled c' := by
  cases h with
  | ret hdone => exact hc
  | phase h => exact absurd hc (not_or.mpr ⟨fun hr => h.not_over.1 hr.1, h.not_over.2⟩)

def Started (c : SaveCall) : Prop := started c.phase = true → 0 < c.runs

theorem Moved.started {c c' : SaveCall} (h : Started c) (hmove : Moved cfg odd c c') : Started c' := by
  cases hmove with
  | ret hdone => exact h
  | @phase p n hn =>
    intro hp
    rcases hn.started hp with hold | hpos
    · exact Nat.lt_of_lt_of_le (h hold) (Nat.le_add_right _ _)
    · exact Nat.lt_of_lt_of_le hpos (Nat.le_add_left _ _)

end

variable {cfg : ServiceConfig} {odd : Oddity → Prop} {s s' : CacheService}

theorem advance_stepped {i : Nat} {c : SaveCall} {m : SaveMove} (hc : s.calls[i]? = some c)
    (hodd : ∀ o, (ServiceEvent.move i m).oddity = some o → odd o) (h : s.advance cfg i c m = some s') :
    Stepped cfg odd s s' := by
  cases m with
  | reserve =>
    simp only [advance, Option.ite_none_right_eq_some, Option.some.injEq] at h
    obtain ⟨hp, rfl⟩ := h
    exact .reserve hc hp
  | put =>
    simp only [advance, Option.ite_none_right_eq_some] at h
    obtain ⟨⟨hp, hasync⟩, h⟩ := h
    split at h
    · simp only [Option.ite_none_left_eq_some, Option.some.injEq] at h
      obtain ⟨hblock, rfl⟩ := h
      exact .inPlace (n := 0) hc (hp ▸ .full hblock)
    · cases h
      exact .put hc hp hasync
  | drop =>
    simp only [advance, Option.ite_none_right_eq_some, Option.some.injEq] at h
    obtain ⟨⟨hp, hpolicy⟩, rfl⟩ := h
    exact .drop hc hp hpolicy
  | runInline =>
    simp only [advance] at h
    split at h
    · rename_i hsync
      cases h
      exact .inPlace hc (hsync.1 ▸ .sync hsync.2)
    · split at h
      · rename_i hdirect
        cases h
        exact .inPlace hc (hdirect.1 ▸ .direct hdirect.2)
      · cases h
  | suspend =>
    simp only [advance] at h
    split at h
    · rename_i r hp
      split at h
      · cases h
        exact .inPlace hc (hp ▸ .suspend r (hodd .suspends rfl))
      · cases h
    · cases h
  | finish ending =>
    simp only [advance] at h
    split at h
    · rename_i r hp
      cases h
      exact .inPlace (n := 0) hc (hp ▸ .finish r ending fun he => hodd .fatal (by rw [he]; rfl))
    · rename_i r hp
      cases h
      exact .inPlace (n := 0) hc (hp ▸ .finishFallback r)
    · cases h
  | release =>
    simp only [advance] at h
    split at h
    · rename_i r ending hp
      cases h
      exact .release r ending hc hp
    · cases h
  | ret =>
    simp only [advance, Option.ite_none_right_eq_some, Option.some.injEq] at h
    obtain ⟨⟨hdone, -⟩, rfl⟩ := h
    exact .ret hc hdone

/-- An item leaves the queue from the front, to be run. -/
theorem take_some {r : Runner} {t : Nat × CacheService} (h : s.take r = some t) : ∃ i queue c,
    s.queue = i :: queue ∧ s.calls[i]? = some c ∧ t = (i, { s with queue := queue }.setCall i (c.start r)) := by
  unfold take at h
  split at h
  · cases h
  · rename_i i queue hq
    obtain ⟨c, hc, rfl⟩ := Option.map_eq_some_iff.mp h
    exact ⟨i, queue, c, hq, hc, rfl⟩

theorem step_stepped {e : ServiceEvent} (hodd : ∀ o, e.oddity = some o → odd o) (h : s.step cfg e = some s') :
    Stepped cfg odd s s' := by
  cases e with
  | save =>
    simp only [step] at h
    split at h
    · cases h
      exact .same
    · cases h
      exact .called
  | move i m =>
    simp only [step] at h
    split at h
    · cases h
    · rename_i c hc
      exact advance_stepped hc hodd h
  | lookup =>
    simp only [step] at h
    split at h
    · cases h
      exact .same
    · cases h
      exact .lookup
  | pass l =>
    simp only [step] at h
    split at h
    · cases h
    · rename_i k hk
      simp only [Option.ite_none_right_eq_some, Option.some.injEq] at h
      obtain ⟨⟨-, hidle⟩, rfl⟩ := h
      exact .pass hk hidle
  | timeout l =>
    simp only [step] at h
    split at h
    · cases h
    · rename_i k hk
      simp only [Option.ite_none_right_eq_some, Option.some.injEq] at h
      obtain ⟨-, rfl⟩ := h
      exact .timeout hk
  | workerCheck =>
    simp only [step, Option.ite_none_right_eq_some, Option.some.injEq] at h
    obtain ⟨hw, rfl⟩ := h
    refine .worker _ (Or.inl hw) (fun i => ?_) fun hexit => ?_
    · split <;> simp
    · by_contra hno
      rw [if_neg hno] at hexit
      cases hexit
  | workerGet =>
    simp only [step, Option.ite_none_right_eq_some] at h
    obtain ⟨hw, h⟩ := h
    split at h
    · cases h
      exact .worker _ (Or.inr hw) (fun i => by simp) fun hexit => nomatch hexit
    · obtain ⟨t, ht, rfl⟩ := Option.map_eq_some_iff.mp h
      obtain ⟨i, queue, c, hq, hc, rfl⟩ := take_some ht
      exact .takeWorker hw hq hc
  | shutdown =>
    simp only [step, Option.ite_none_right_eq_some] at h
    obtain ⟨hd, h⟩ := h
    split at h
    · cases h
      exact .shutdown true .joining (fun _ => rfl) hd (Or.inl rfl)
    · rename_i hasync
      cases h
      exact .shutdown s.stop .returned id hd (Or.inr ⟨by simpa using hasync, rfl⟩)
  | join =>
    simp only [step, Option.ite_none_right_eq_some, Option.some.injEq] at h
    obtain ⟨⟨hd, hw⟩, rfl⟩ := h
    exact .join hd hw
  | joinTimeout =>
    simp only [step, Option.ite_none_right_eq_some, Option.some.injEq] at h
    obtain ⟨⟨hd, -⟩, rfl⟩ := h
    exact .joinTimeout hd (hodd .late rfl)
  | flushGet =>
    simp only [step, Option.ite_none_right_eq_some] at h
    obtain ⟨hd, h⟩ := h
    split at h
    · rename_i hq
      cases h
      exact .flushed hd hq
    · obtain ⟨t, ht, rfl⟩ := Option.map_eq_some_iff.mp h
      obtain ⟨i, queue, c, hq, hc, rfl⟩ := take_some ht
      exact .takeFlush hd hq hc

end CacheSeek.Proofs.SaveLife
