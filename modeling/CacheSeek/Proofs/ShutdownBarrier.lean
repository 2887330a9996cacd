import CacheSeek.Proofs.VectorBarrier

namespace CacheSeek.Proofs.ShutdownBarrier
open CacheSeek.Lib CacheSeek.Service CacheService CacheSeek.Proofs.SaveLife CacheSeek.Proofs.VectorBarrier

variable {cfg : ServiceConfig} {odd : Oddity → Prop} {s s' : CacheService} {e : ServiceEvent}

theorem proceed_shutdown (s : CacheService) (r : Runner) (ending : Ending) :
    (s.proceed r ending).shutdown = s.shutdown ∨ r = .flush := by
  cases r with
  | flush => exact Or.inr rfl
  | _ => exact Or.inl rfl

theorem proceed_calls (s : CacheService) (r : Runner) (ending : Ending) :
    (s.proceed r ending).calls = s.calls := by cases r <;> rfl

/-- A save's own move starts and ends no shutdown, unless shutdown itself runs it. -/
theorem advance_frame {i : Nat} {c : SaveCall} {m : SaveMove} (h : s.advance cfg i c m = some s') :
    s'.calls.length = s.calls.length ∧ (s'.shutdown = s.shutdown ∨ c.phase.runner = some .flush) := by
  cases m with
  | put =>
    simp only [advance, Option.ite_none_right_eq_some] at h
    obtain ⟨-, h⟩ := h
    split at h
    · simp only [Option.ite_none_left_eq_some, Option.some.injEq] at h
      obtain ⟨-, rfl⟩ := h
      exact ⟨by simp [setCall], Or.inl rfl⟩
    · cases h
      exact ⟨by simp [setCall], Or.inl rfl⟩
  | runInline =>
    simp only [advance] at h
    split at h
    · cases h
      exact ⟨by simp [setCall], Or.inl rfl⟩
    · split at h
      · cases h
        exact ⟨by simp [setCall], Or.inl rfl⟩
      · cases h
  | suspend =>
    simp only [advance] at h
    split at h
    · split at h
      · cases h
        exact ⟨by simp [setCall], Or.inl rfl⟩
      · cases h
    · cases h
  | finish ending =>
    simp only [advance] at h
    split at h
    · cases h
      exact ⟨by simp [setCall], Or.inl rfl⟩
    · cases h
      exact ⟨by simp [setCall], Or.inl rfl⟩
    · cases h
  | release =>
    simp only [advance] at h
    split at h
    · rename_i r ending hp
      cases h
      refine ⟨by simp [setCall, proceed_calls, releaseVectorUpdate], ?_⟩
      exact (proceed_shutdown s.releaseVectorUpdate r ending).imp id fun hr => by rw [hp, hr]; rfl
    · cases h
  | _ =>
    simp only [advance, Option.ite_none_right_eq_some, Option.some.injEq] at h
    obtain ⟨-, rfl⟩ := h
    exact ⟨by simp [setCall, reserveVectorUpdate, releaseVectorUpdate], Or.inl rfl⟩

/-- While `shutdown` waits for the worker it goes on only when the worker has exited, or gives up. -/
theorem Sound.joining_step (h : Sound s) (hd : s.shutdown = .joining) (hstep : s.step cfg e = some s') :
    s'.shutdown = .joining ∨ e = .joinTimeout ∨ (e = .join ∧ s.worker = .exited ∧
      s' = { s with shutdown := if cfg.flushOnShutdown then .flushing else .returned }) := by
  cases e with
  | join =>
    simp only [step, Option.ite_none_right_eq_some, Option.some.injEq] at hstep
    exact Or.inr (Or.inr ⟨rfl, hstep.1.2, hstep.2.symm⟩)
  | joinTimeout => exact Or.inr (Or.inl rfl)
  | move i m =>
    simp only [step] at hstep
    split at hstep
    · cases hstep
    · rename_i c hc
      rcases (advance_frame hstep).2 with heq | hrunner
      · exact Or.inl (heq.trans hd)
      · have := (h.flush i).mpr ⟨c, hc, hrunner⟩
        rw [hd] at this
        cases this
  | workerGet =>
    simp only [step, Option.ite_none_right_eq_some] at hstep
    obtain ⟨-, hstep⟩ := hstep
    split at hstep
    · cases hstep
      exact Or.inl hd
    · obtain ⟨t, ht, rfl⟩ := Option.map_eq_some_iff.mp hstep
      obtain ⟨i, queue, c, -, -, rfl⟩ := take_some ht
      exact Or.inl hd
  | shutdown => simp [step, hd] at hstep
  | flushGet => simp [step, hd] at hstep
  | save =>
    simp only [step] at hstep
    split at hstep <;> cases hstep <;> exact Or.inl hd
  | lookup =>
    simp only [step] at hstep
    split at hstep <;> cases hstep <;> exact Or.inl hd
  | workerCheck =>
    simp only [step, Option.ite_none_right_eq_some, Option.some.injEq] at hstep
    obtain ⟨-, rfl⟩ := hstep
    exact Or.inl hd
  | pass l =>
    simp only [step] at hstep
    split at hstep
    · cases hstep
    · simp only [Option.ite_none_right_eq_some, Option.some.injEq] at hstep
      obtain ⟨-, rfl⟩ := hstep
      exact Or.inl hd
  | timeout l =>
    simp only [step] at hstep
    split at hstep
    · cases hstep
    · simp only [Option.ite_none_right_eq_some, Option.some.injEq] at hstep
      obtain ⟨-, rfl⟩ := hstep
      exact Or.inl hd

/-- Only a call of `save` adds a call. -/
theorem calls_length (hsave : e ≠ .save) (hstep : s.step cfg e = some s') : s'.calls.length = s.calls.length := by
  cases e with
  | save => exact absurd rfl hsave
  | move i m =>
    simp only [step] at hstep
    split at hstep
    · cases hstep
    · exact (advance_frame hstep).1
  | workerGet =>
    simp only [step, Option.ite_none_right_eq_some] at hstep
    obtain ⟨-, hstep⟩ := hstep
    split at hstep
    · cases hstep
      rfl
    · obtain ⟨t, ht, rfl⟩ := Option.map_eq_some_iff.mp hstep
      obtain ⟨i, queue, c, -, -, rfl⟩ := take_some ht
      exact List.length_set
  | flushGet =>
    simp only [step, Option.ite_none_right_eq_some] at hstep
    obtain ⟨-, hstep⟩ := hstep
    split at hstep
    · cases hstep
      rfl
    · obtain ⟨t, ht, rfl⟩ := Option.map_eq_some_iff.mp hstep
      obtain ⟨i, queue, c, -, -, rfl⟩ := take_some ht
      exact List.length_set
  | shutdown =>
    simp only [step, Option.ite_none_right_eq_some] at hstep
    obtain ⟨-, hstep⟩ := hstep
    split at hstep <;> cases hstep <;> rfl
  | lookup =>
    simp only [step] at hstep
    split at hstep <;> cases hstep <;> rfl
  | pass l =>
    simp only [step] at hstep
    split at hstep
    · cases hstep
    · simp only [Option.ite_none_right_eq_some, Option.some.injEq] at hstep
      obtain ⟨-, rfl⟩ := hstep
      rfl
  | timeout l =>
    simp only [step] at hstep
    split at hstep
    · cases hstep
    · simp only [Option.ite_none_right_eq_some, Option.some.injEq] at hstep
      obtain ⟨-, rfl⟩ := hstep
      rfl
  | _ =>
    simp only [step, Option.ite_none_right_eq_some, Option.some.injEq] at hstep
    obtain ⟨-, rfl⟩ := hstep
    rfl

theorem Moved.callerDone {c c' : SaveCall} (h : Moved cfg odd c c') (hdone : c.phase.callerDone = true) :
    c'.phase.callerDone = true := by
  cases h with
  | ret _ => exact hdone
  | @phase p n h =>
    generalize c.phase = q at h hdone
    cases h with
    | inPlace h => exact h.facts.2.2.2.2.2.2 hdone
    | take r hr => rcases hr with rfl | rfl <;> rfl
    | release r ending => rfl
    | _ => simp [SavePhase.callerDone, SavePhase.runner] at hdone

/-- No save call is in progress, and what `shutdown` waits for or flushes is settled
where it is. -/
structure Closing (cfg : ServiceConfig) (s : CacheService) : Prop where
  sound : Sound s
  done : ∀ c ∈ s.calls, c.phase.callerDone = true
  begun : s.shutdown ≠ .notCalled
  direct : cfg.asyncSave = false → s.queue = []
  exited : s.shutdown ≠ .joining → s.worker = .exited
  flushed : s.shutdown = .returned → cfg.flushOnShutdown = true → s.queue = []
  unflushed : s.shutdown ≠ .joining → cfg.flushOnShutdown = false → s.shutdown = .returned

theorem Closing.done_stepped (h : Closing cfg s) (hstep : Stepped cfg odd s s')
    (hlength : s'.calls.length = s.calls.length) : ∀ c ∈ s'.calls, c.phase.callerDone = true := by
  rcases h.sound.calls_stepped hstep with heq | heq | ⟨i, c, c', hc, hmoved, heq⟩ <;> rw [heq] at hlength ⊢
  · exact h.done
  · simp at hlength
  · intro d hd
    rcases List.mem_or_eq_of_mem_set hd with hd | rfl
    · exact h.done d hd
    · exact Moved.callerDone hmoved (h.done c (List.mem_of_getElem? hc))

/-- No caller is between its reservation and its put. -/
theorem Closing.not_reserved (h : Closing cfg s) {i : Nat} {c : SaveCall} (hc : s.calls[i]? = some c) :
    c.phase ≠ .reserved := by
  intro hp
  have hdone := h.done c (List.mem_of_getElem? hc)
  rw [hp] at hdone
  cases hdone

/-- Only the worker and the flush take from the queue now, and nobody adds to it. -/
theorem Closing.queue_stepped (h : Closing cfg s) (hstep : Stepped cfg odd s s') :
    s'.queue = s.queue ∨ (∃ i, s.queue = i :: s'.queue) ∧ s.shutdown ≠ .returned := by
  cases hstep with
  | put hc hp hasync => exact absurd hp (h.not_reserved hc)
  | @release i c r ending hc hp => exact Or.inl (by cases r <;> rfl)
  | @takeWorker i c queue hw hq hc =>
    refine Or.inr ⟨⟨i, hq⟩, fun hd => ?_⟩
    have := h.exited (by rw [hd]; simp)
    rw [hw] at this
    cases this
  | @takeFlush i c queue hd hq hc =>
    refine Or.inr ⟨⟨i, hq⟩, fun hd' => ?_⟩
    rw [hd] at hd'
    cases hd'
  | _ => exact Or.inl rfl

/-- As long as no save is called and the join does not time out. -/
theorem Closing.step (h : Closing cfg s) (he : e ≠ .save ∧ e ≠ .joinTimeout) (hstep : s.step cfg e = some s') :
    Closing cfg s' := by
  have hstepped : Stepped cfg (fun _ => True) s s' := step_stepped (fun _ _ => trivial) hstep
  have hsound := h.sound.stepped hstepped
  have hdone := h.done_stepped hstepped (calls_length he.1 hstep)
  have hqueue := h.queue_stepped hstepped
  have hdirect : cfg.asyncSave = false → s'.queue = [] := by
    intro hasync
    have hnil := h.direct hasync
    rcases hqueue with hq | ⟨⟨i, hq⟩, -⟩
    · exact hq.trans hnil
    · rw [hnil] at hq
      cases hq
  by_cases hjoining : s.shutdown = .joining
  · rcases Sound.joining_step h.sound hjoining hstep with hd | hd | ⟨-, hw, rfl⟩
    · exact ⟨hsound, hdone, (by rw [hd]; simp), hdirect, fun hne => absurd hd hne,
        (fun hr => by rw [hd] at hr; cases hr), fun hne => absurd hd hne⟩
    · exact absurd hd he.2
    · refine ⟨hsound, hdone, ?_, hdirect, fun _ => hw, fun hr hflush => ?_, fun _ hflush => ?_⟩
      · dsimp only
        split <;> simp
      · rw [if_pos hflush] at hr
        cases hr
      · exact if_neg (by rw [hflush]; simp)
  · have hw := h.exited hjoining
    cases hstepped with
    | @release i c r ending hc hp =>
      cases r with
      | worker =>
        have := (h.sound.worker i).mpr ⟨c, hc, by rw [hp]; rfl⟩
        rw [hw] at this
        cases this
      | flush =>
        have hrunning := (h.sound.flush i).mpr ⟨c, hc, by rw [hp]; rfl⟩
        have hgone : ∀ d, (ShutdownPc.raised ≠ d ∧ ShutdownPc.flushing ≠ d) →
            (if ending = .baseException then ShutdownPc.raised else .flushing) ≠ d := by
          intro d hd
          split
          · exact hd.1
          · exact hd.2
        refine ⟨hsound, hdone, hgone .notCalled (by decide), hdirect, fun _ => hw,
          (fun hd => absurd hd (hgone .returned (by decide))), fun _ hflush => ?_⟩
        have := h.unflushed hjoining hflush
        rw [hrunning] at this
        cases this
      | direct => exact ⟨hsound, hdone, h.begun, hdirect, h.exited, h.flushed, h.unflushed⟩
      | sync => exact ⟨hsound, hdone, h.begun, hdirect, h.exited, h.flushed, h.unflushed⟩
    | takeWorker hget hq hc =>
      rw [hw] at hget
      cases hget
    | @takeFlush i c queue hd hq hc =>
      refine ⟨hsound, hdone, (fun hd => by cases hd), hdirect, fun _ => hw, (fun hd => by cases hd), fun _ hflush => ?_⟩
      have := h.unflushed hjoining hflush
      rw [hd] at this
      cases this
    | worker w hget hw' hstop =>
      rw [hw] at hget
      rcases hget with hget | hget <;> cases hget
    | shutdown stop d hstop hd hd' => exact absurd hd h.begun
    | join hd _ => exact absurd hd hjoining
    | joinTimeout hd _ => exact absurd hd hjoining
    | flushed hd hq =>
        exact ⟨hsound, hdone, (fun hd => by cases hd), hdirect, fun _ => hw, fun _ _ => hq, fun _ _ => rfl⟩
    | put hc hp hasync => exact absurd hp (h.not_reserved hc)
    | _ => exact ⟨hsound, hdone, h.begun, hdirect, h.exited, h.flushed, h.unflushed⟩

theorem Closing.returned_stepped (h : Closing cfg s) (hd : s.shutdown = .returned) (hstep : Stepped cfg odd s s') :
    s'.shutdown = .returned := by
  cases hstep with
  | @release i c r ending hc hp =>
    rcases proceed_shutdown s.releaseVectorUpdate r ending with heq | hr
    · exact heq.trans hd
    · have := (h.sound.flush i).mpr ⟨c, hc, by rw [hp, hr]; rfl⟩
      rw [hd] at this
      cases this
  | takeFlush hd' _ _ =>
    rw [hd] at hd'
    cases hd'
  | shutdown stop d _ hd' _ => exact absurd hd' h.begun
  | join hd' _ =>
    rw [hd] at hd'
    cases hd'
  | joinTimeout _ _ => rfl
  | flushed _ _ => rfl
  | _ => exact hd

/-- Neither a new call of `save` nor a join that gives up. -/
def Orderly (e : ServiceEvent) : Prop := e ≠ .save ∧ e ≠ .joinTimeout

theorem Closing.after (h : Closing cfg s) {es : List ServiceEvent} (hes : ∀ e ∈ es, Orderly e)
    (hrun : run (CacheService.step cfg) s es = some s') : Closing cfg s' :=
  run_invariant_of (I := Closing cfg) (fun _ _ _ h he hstep => h.step he hstep) h hes hrun

/-- Once `shutdown` has returned the queue stays as it is. -/
theorem Closing.queue_returned (h : Closing cfg s) (hd : s.shutdown = .returned) {es : List ServiceEvent}
    (hes : ∀ e ∈ es, Orderly e) (hrun : run (CacheService.step cfg) s es = some s') : s'.queue = s.queue := by
  refine (run_invariant_of (I := fun t => Closing cfg t ∧ t.shutdown = .returned ∧ t.queue = s.queue)
    (E := Orderly) ?_ ⟨h, hd, rfl⟩ hes hrun).2.2
  rintro t e t' ⟨ht, hreturned, hq⟩ he hstep
  have hstepped : Stepped cfg (fun _ => True) t t' := step_stepped (fun _ _ => trivial) hstep
  refine ⟨ht.step he hstep, ht.returned_stepped hreturned hstepped, ?_⟩
  rcases ht.queue_stepped hstepped with heq | ⟨-, hne⟩
  · exact heq.trans hq
  · exact absurd hreturned hne

/-- After the join without a flush the queue is left as it was. -/
theorem Closing.left (h : Closing cfg s) (hflush : cfg.flushOnShutdown = false) {fs gs : List ServiceEvent}
    (hes : ∀ e ∈ fs ++ .join :: gs, Orderly e) {u : CacheService} (hu : run (CacheService.step cfg) s fs = some u)
    (hrun : run (CacheService.step cfg) s (fs ++ .join :: gs) = some s') : s'.queue = u.queue := by
  obtain ⟨u', hu', hrest⟩ := run_append.mp hrun
  cases hu.symm.trans hu'
  obtain ⟨v, hv, hgs⟩ := run_cons.mp hrest
  have hclosing : Closing cfg u := h.after (fun e he => hes e (List.mem_append_left _ he)) hu
  have hjoined := hclosing.step (hes .join (by simp)) hv
  simp only [CacheService.step, Option.ite_none_right_eq_some, Option.some.injEq] at hv
  obtain ⟨-, rfl⟩ := hv
  exact hjoined.queue_returned (by simp [hflush]) (fun e he => hes e (by simp [he])) hgs

structure Direct (cfg : ServiceConfig) (s : CacheService) : Prop where
  queue : cfg.asyncSave = false → s.queue = []
  worker : cfg.asyncSave = false → s.worker = .exited

theorem Direct.stepped (h : Direct cfg s) (hsound : Sound s) (hstep : Stepped cfg odd s s') : Direct cfg s' := by
  cases hstep with
  | put hc hp hasync =>
    refine ⟨fun hdirect => ?_, h.worker⟩
    rw [hasync] at hdirect
    cases hdirect
  | @release i c r ending hc hp =>
    cases r with
    | worker =>
      refine ⟨h.queue, fun hdirect => ?_⟩
      have := (hsound.worker i).mpr ⟨c, hc, by rw [hp]; rfl⟩
      rw [h.worker hdirect] at this
      cases this
    | _ => exact ⟨h.queue, h.worker⟩
  | takeWorker hw hq hc =>
    refine ⟨fun hdirect => ?_, fun hdirect => ?_⟩ <;>
    · rw [h.worker hdirect] at hw
      cases hw
  | takeFlush hd hq hc =>
    refine ⟨fun hdirect => ?_, h.worker⟩
    rw [h.queue hdirect] at hq
    cases hq
  | worker w hw hw' hstop =>
    refine ⟨h.queue, fun hdirect => ?_⟩
    rw [h.worker hdirect] at hw
    rcases hw with hw | hw <;> cases hw
  | _ => exact ⟨h.queue, h.worker⟩

/-- Nothing is counted at the barrier, and every lookup that waits there may pass. -/
structure Open (cfg : ServiceConfig) (s : CacheService) : Prop where
  pending : s.pending = 0
  idle : s.idle = true
  passes : ∀ l k, s.lookups[l]? = some k → k.pc = .waiting → ∃ s', s.step cfg (.pass l) = some s'

def unflushed : ServiceConfig := { queueing with flushOnShutdown := false }

end CacheSeek.Proofs.ShutdownBarrier
