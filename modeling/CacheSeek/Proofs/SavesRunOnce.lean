import CacheSeek.Proofs.VectorBarrier

namespace CacheSeek.Proofs.SavesRunOnce
open CacheSeek.Lib CacheSeek.Service CacheService CacheSeek.Proofs.SaveLife CacheSeek.Proofs.VectorBarrier

variable {cfg : ServiceConfig} {s s' : CacheService}

/-- In an ordinary run only a `BaseException` is odd. -/
abbrev OnlyFatal (o : Oddity) : Prop := o = .fatal

/-- An ordinary event is fatal at worst. -/
theorem ordinary_odd {e : ServiceEvent} (he : e.ordinary = true) : ∀ o, e.oddity = some o → OnlyFatal o := by
  intro o ho
  simp only [ServiceEvent.ordinary, ho, Bool.and_eq_true, decide_eq_true_eq, ne_eq, Option.some.injEq] at he
  cases o with
  | suspends => exact absurd rfl he.1
  | late => exact absurd rfl he.2
  | fatal => rfl

/-- A call counts one run once it has begun, and only the policies that drop drop it. -/
structure Once (cfg : ServiceConfig) (c : SaveCall) : Prop where
  runs : c.runs = if started c.phase then 1 else 0
  dropped : c.phase = .dropped → cfg.onFull = .drop ∨ cfg.onFull = .downgrade

theorem once_called : Once cfg ⟨.called, 0, false⟩ := ⟨rfl, fun h => nomatch h⟩

/-- Without suspension a phase begins the strategy's save at most once. -/
theorem started_next {p p' : SavePhase} {n : Nat} (h : NextPhase cfg OnlyFatal p p' n) :
    (if started p' then 1 else 0) = (if started p then 1 else 0) + n := by
  cases h with
  | inPlace h =>
    cases h with
    | suspend r hodd => cases hodd
    | _ => rfl
  | _ => rfl

theorem Once.moved {c c' : SaveCall} (h : Once cfg c) (hmove : Moved cfg OnlyFatal c c') : Once cfg c' := by
  cases hmove with
  | ret hdone => exact ⟨h.runs, h.dropped⟩
  | phase hn =>
    refine ⟨?_, fun hp => ?_⟩
    · rw [started_next hn]
      exact congrArg (· + _) h.runs
    · dsimp only at hp
      subst hp
      generalize c.phase = p at hn
      rcases hn with _ | _ | _ | ⟨⟨⟩⟩ | hpolicy | _
      exact hpolicy

/-- The queue has taken the call, or it is over. -/
def Accepted (p : SavePhase) : Prop :=
  p = .queued ∨ p.runner = some .worker ∨ p.runner = some .flush ∨ p = .released

/-- An accepted save is never dropped later. -/
theorem accepted_next {p p' : SavePhase} {n : Nat} (h : NextPhase cfg OnlyFatal p p' n) (hp : Accepted p) :
    Accepted p' := by
  unfold Accepted at hp ⊢
  cases h with
  | inPlace h => cases h <;> simp_all [SavePhase.runner]
  | take r hr => rcases hr with rfl | rfl <;> simp [SavePhase.runner]
  | _ => simp_all [SavePhase.runner]

theorem accepted_moved {c c' : SaveCall} (hmove : Moved cfg OnlyFatal c c') (h : Accepted c.phase) :
    Accepted c'.phase := by
  cases hmove with
  | ret hdone => exact h
  | phase hn => exact accepted_next hn h

structure ShutdownOk (s : CacheService) : Prop where
  exited : s.shutdown = .flushing ∨ (∃ i, s.shutdown = .running i) ∨ s.shutdown = .returned → s.worker = .exited
  before : ∀ i ∈ s.returnedBefore, ∃ c, s.calls[i]? = some c ∧ c.returned = true
  ended : s.shutdown = .returned → ∀ i ∈ s.returnedBefore, ∃ c, s.calls[i]? = some c ∧
    (c.phase = .released ∨ c.phase = .dropped)

/-- With the queue empty, and neither the worker nor the flush at work, a call that has
returned is over. -/
theorem Sound.over_of_flushed (h : Sound s) (hq : s.queue = []) (hw : s.worker = .exited) (hd : s.shutdown = .flushing)
    {i : Nat} {c : SaveCall} (hc : s.calls[i]? = some c) (hret : c.returned = true) :
    c.phase = .released ∨ c.phase = .dropped := by
  have hqueue : c.phase ≠ .queued := fun hp => by
    have := (h.queue i).mpr ⟨c, hc, hp⟩
    rw [hq] at this
    cases this
  have hworker : c.phase.runner ≠ some .worker := fun hp => by
    have := (h.worker i).mpr ⟨c, hc, hp⟩
    rw [hw] at this
    cases this
  have hflush : c.phase.runner ≠ some .flush := fun hp => by
    have := (h.flush i).mpr ⟨c, hc, hp⟩
    rw [hd] at this
    cases this
  have hdone := h.returned i c hc hret
  simpa [SavePhase.callerDone, hqueue, hworker, hflush] using hdone

section Steps
variable (hasync : cfg.asyncSave = true) (hflush : cfg.flushOnShutdown = true)

theorem ShutdownOk.keep (h : ShutdownOk s) (hsound : Sound s) (hstep : Stepped cfg OnlyFatal s s')
    (hbefore : s'.returnedBefore = s.returnedBefore) (hshutdown : s'.shutdown = .returned → s.shutdown = .returned)
    (hexited : s'.shutdown = .flushing ∨ (∃ i, s'.shutdown = .running i) ∨ s'.shutdown = .returned →
      s'.worker = .exited) : ShutdownOk s' := by
  refine ⟨hexited, fun i hi => ?_, fun hd i hi => ?_⟩
  · rw [hbefore] at hi
    obtain ⟨c, hc, hret⟩ := h.before i hi
    obtain ⟨c', hc', rfl | hmoved⟩ := hsound.call_stepped hstep hc
    · exact ⟨c', hc', hret⟩
    · exact ⟨c', hc', hmoved.returned hret⟩
  · rw [hbefore] at hi
    obtain ⟨c, hc, hover⟩ := h.ended (hshutdown hd) i hi
    obtain ⟨c', hc', rfl | hmoved⟩ := hsound.call_stepped hstep hc
    · exact ⟨c', hc', hover⟩
    · refine ⟨c', hc', ?_⟩
      cases hmoved with
      | ret hdone => exact hover
      | phase hn => exact absurd hover (not_or.mpr hn.not_over)

include hasync hflush

theorem ShutdownOk.stepped (h : ShutdownOk s) (hsound : Sound s) (hstep : Stepped cfg OnlyFatal s s') :
    ShutdownOk s' := by
  have hstep' := hstep
  cases hstep with
  | @release i c r ending hc hp =>
    cases r with
    | worker =>
      refine h.keep hsound hstep' rfl id fun hd => ?_
      have hw := h.exited hd
      rw [(hsound.worker i).mpr ⟨c, hc, by rw [hp]; rfl⟩] at hw
      cases hw
    | flush =>
      have hrunning := (hsound.flush i).mpr ⟨c, hc, by rw [hp]; rfl⟩
      refine h.keep hsound hstep' rfl (fun hd => ?_) fun _ => h.exited (Or.inr (Or.inl ⟨i, hrunning⟩))
      simp only [setCall, proceed] at hd
      split at hd <;> cases hd
    | direct => exact h.keep hsound hstep' rfl id h.exited
    | sync => exact h.keep hsound hstep' rfl id h.exited
  | @takeWorker i c queue hw hq hc =>
    refine h.keep hsound hstep' rfl id fun hd => ?_
    have hexited := h.exited hd
    rw [hw] at hexited
    cases hexited
  | @takeFlush i c queue hd hq hc =>
    exact h.keep hsound hstep' rfl (fun hd' => by cases hd') fun _ => h.exited (Or.inl hd)
  | worker w hw hw' hstop =>
    refine h.keep hsound hstep' rfl id fun hd => ?_
    have hexited := h.exited hd
    rcases hw with hw | hw <;> cases hw.symm.trans hexited
  | shutdown stop d hstop hd hd' =>
    have hjoining : d = .joining := by
      rcases hd' with rfl | ⟨hdirect, -⟩
      · rfl
      · rw [hasync] at hdirect
        cases hdirect
    subst hjoining
    refine ⟨fun hd' => ?_, fun i hi => mem_returnedCalls hi, fun hd' => by cases hd'⟩
    rcases hd' with hd' | ⟨i, hd'⟩ | hd' <;> cases hd'
  | join hd hw =>
    refine h.keep hsound hstep' rfl (fun hd' => ?_) fun _ => hw
    rw [if_pos hflush] at hd'
    cases hd'
  | joinTimeout hd hodd => cases hodd
  | flushed hd hq =>
    have hw := h.exited (Or.inl hd)
    refine ⟨fun _ => hw, h.before, fun _ i hi => ?_⟩
    obtain ⟨c, hc, hret⟩ := h.before i hi
    exact ⟨c, hc, Sound.over_of_flushed hsound hq hw hd hc hret⟩
  | _ => exact h.keep hsound hstep' rfl id h.exited

end Steps

structure Orderly (cfg : ServiceConfig) (s : CacheService) : Prop where
  sound : Sound s
  once : ∀ c ∈ s.calls, Once cfg c
  shutdown : ShutdownOk s

theorem orderly_init (cfg : ServiceConfig) : Orderly cfg (init cfg) :=
  ⟨sound_init cfg, (fun c hc => nomatch hc), fun hd => by simp [init] at hd, (fun i hi => nomatch hi),
    fun hd => nomatch hd⟩

theorem Orderly.step (hasync : cfg.asyncSave = true) (hflush : cfg.flushOnShutdown = true) (h : Orderly cfg s)
    {e : ServiceEvent} (he : e.ordinary = true) (hstep : s.step cfg e = some s') : Orderly cfg s' := by
  have hstepped : Stepped cfg OnlyFatal s s' := step_stepped (ordinary_odd he) hstep
  exact ⟨h.sound.stepped hstepped, h.sound.calls_keep hstepped once_called (fun c c' => Once.moved) h.once,
    h.shutdown.stepped hasync hflush h.sound hstepped⟩

theorem Orderly.run (hasync : cfg.asyncSave = true) (hflush : cfg.flushOnShutdown = true) (h : Orderly cfg s)
    {es : List ServiceEvent} (hes : ∀ e ∈ es, e.ordinary = true) (hrun : run (CacheService.step cfg) s es = some s') :
    Orderly cfg s' :=
  run_invariant_of (I := Orderly cfg) (E := fun e => e.ordinary = true)
    (fun _ _ _ h he hstep => h.step hasync hflush he hstep) h hes hrun

/-- Once in the queue, a call is accepted in every later state. -/
theorem accepted_run (hasync : cfg.asyncSave = true) (hflush : cfg.flushOnShutdown = true) (h : Orderly cfg s)
    {es : List ServiceEvent} (hes : ∀ e ∈ es, e.ordinary = true) (hrun : run (CacheService.step cfg) s es = some s')
    {i : Nat} (hi : i ∈ s.queue) : ∃ c, s'.calls[i]? = some c ∧ Accepted c.phase := by
  obtain ⟨c, hc, hp⟩ := (h.sound.queue i).mp hi
  refine (run_invariant_of (I := fun s => Orderly cfg s ∧ ∃ c, s.calls[i]? = some c ∧ Accepted c.phase)
    (E := fun e => e.ordinary = true) ?_ ⟨h, c, hc, Or.inl hp⟩ hes hrun).2
  rintro t e t' ⟨ht, c, hc, hacc⟩ he hstep
  have hstepped : Stepped cfg OnlyFatal t t' := step_stepped (ordinary_odd he) hstep
  refine ⟨ht.step hasync hflush he hstep, ?_⟩
  obtain ⟨c', hc', rfl | hmoved⟩ := ht.sound.call_stepped hstepped hc
  · exact ⟨c', hc', hacc⟩
  · exact ⟨c', hc', accepted_moved hmoved hacc⟩

/-- The worker goes on until it is told to stop, and the flush to its end. -/
structure GoesOn (s : CacheService) : Prop where
  ended : ∀ c ∈ s.calls, ∀ r, c.phase ≠ .ended r .baseException
  shutdown : s.shutdown ≠ .raised
  worker : s.worker = .exited → s.stop = true

/-- Only a BaseException ends a save that way. -/
theorem not_fatal_moved {odd : Oddity → Prop} (hodd : ¬ odd .fatal) {c c' : SaveCall}
    (h : ∀ r, c.phase ≠ .ended r .baseException) (hmove : Moved cfg odd c c') :
    ∀ r, c'.phase ≠ .ended r .baseException := by
  intro r hp
  cases hmove with
  | ret hdone => exact h r hp
  | phase hn =>
    dsimp only at hp
    subst hp
    generalize c.phase = p at hn
    cases hn with
    | inPlace hp =>
      cases hp with
      | finish _ _ hfatal => exact hodd (hfatal rfl)

theorem GoesOn.stepped {odd : Oddity → Prop} (hodd : ¬ odd .fatal) (h : GoesOn s) (hsound : Sound s)
    (hstep : Stepped cfg odd s s') : GoesOn s' := by
  have hended := hsound.calls_keep hstep (P := fun c => ∀ r, c.phase ≠ .ended r .baseException)
    (fun r hp => by cases hp) (fun c c' => not_fatal_moved hodd) h.ended
  cases hstep with
  | @release i c r ending hc hp =>
    have hne : ending ≠ .baseException := fun he => h.ended c (List.mem_of_getElem? hc) r (he ▸ hp)
    cases r with
    | worker =>
      refine ⟨hended, h.shutdown, fun hw => ?_⟩
      simp only [setCall, proceed, if_neg hne] at hw
      cases hw
    | flush =>
      refine ⟨hended, fun hd => ?_, h.worker⟩
      simp only [setCall, proceed, if_neg hne] at hd
      cases hd
    | direct => exact ⟨hended, h.shutdown, h.worker⟩
    | sync => exact ⟨hended, h.shutdown, h.worker⟩
  | takeWorker hw hq hc => exact ⟨hended, h.shutdown, fun hexit => by cases hexit⟩
  | takeFlush hd hq hc => exact ⟨hended, (fun hd' => by cases hd'), h.worker⟩
  | worker w hw hw' hstop => exact ⟨hended, h.shutdown, hstop⟩
  | shutdown stop d hstop hd hd' =>
    refine ⟨hended, fun hr => ?_, fun hw => hstop (h.worker hw)⟩
    rcases hd' with rfl | ⟨-, rfl⟩ <;> cases hr
  | join hd hw =>
    refine ⟨hended, fun hr => ?_, h.worker⟩
    dsimp only at hr
    split at hr <;> cases hr
  | joinTimeout hd hlate => exact ⟨hended, (fun hr => by cases hr), h.worker⟩
  | flushed hd hq => exact ⟨hended, (fun hr => by cases hr), h.worker⟩
  | _ => exact ⟨hended, h.shutdown, h.worker⟩

/-- Without a BaseException the worker and the flush go on to their ends. -/
theorem goesOn_run (hasync : cfg.asyncSave = true) {es : List ServiceEvent}
    (hes : ∀ e ∈ es, e.oddity ≠ some .fatal) (hrun : run (CacheService.step cfg) (init cfg) es = some s) :
    GoesOn s := by
  have hinit : GoesOn (init cfg) := ⟨(fun c hc => by cases hc), (fun hd => by cases hd), fun hw => by
    simp [init, hasync] at hw⟩
  refine (run_invariant_of (I := fun s => Sound s ∧ GoesOn s) (E := fun e => e.oddity ≠ some .fatal) ?_
    ⟨sound_init cfg, hinit⟩ hes hrun).2
  rintro t e t' ⟨hsound, hgoes⟩ he hstep
  have hstepped : Stepped cfg (fun o => o ≠ .fatal) t t' :=
    step_stepped (fun o ho hfatal => he (by rw [ho, hfatal])) hstep
  exact ⟨hsound.stepped hstepped, hgoes.stepped (fun hne => hne rfl) hsound hstepped⟩

/-- In every run in which no save suspends and the worker exits in time: no call runs the
strategy's save twice, and when `shutdown` has returned, each call of `save` that had
returned before it was either run once or, by a policy that drops, dropped and not run.
Those that were in the queue were run. Where saves raise only `Exception`s the worker goes on
until it is told to stop, and `shutdown` to the end of the queue. -/
theorem saves_run_once (cfg : ServiceConfig) (hasync : cfg.asyncSave = true) (hflush : cfg.flushOnShutdown = true)
    (es : List ServiceEvent) (hes : ∀ e ∈ es, e.ordinary = true) (s : CacheService)
    (hrun : run (step cfg) (init cfg) es = some s) :
    (∀ c ∈ s.calls, c.runs ≤ 1) ∧
    (s.shutdown = .returned → ∀ i ∈ s.returnedBefore, ∃ c, s.calls[i]? = some c ∧
      ((c.phase = .released ∧ c.runs = 1) ∨
        (c.phase = .dropped ∧ c.runs = 0 ∧ (cfg.onFull = .drop ∨ cfg.onFull = .downgrade)))) ∧
    (∀ fs gs t, es = fs ++ gs → run (step cfg) (init cfg) fs = some t → s.shutdown = .returned →
      ∀ i ∈ t.queue, i ∈ s.returnedBefore → ∃ c, s.calls[i]? = some c ∧ c.phase = .released ∧ c.runs = 1) ∧
    ((∀ e ∈ es, e.oddity ≠ some .fatal) → s.shutdown ≠ .raised ∧ (s.worker = .exited → s.stop = true)) := by
  have h : Orderly cfg s := (orderly_init cfg).run hasync hflush hes hrun
  have hended : s.shutdown = .returned → ∀ i ∈ s.returnedBefore, ∃ c, s.calls[i]? = some c ∧
      ((c.phase = .released ∧ c.runs = 1) ∨
        (c.phase = .dropped ∧ c.runs = 0 ∧ (cfg.onFull = .drop ∨ cfg.onFull = .downgrade))) := by
    intro hd i hi
    obtain ⟨c, hc, hover⟩ := h.shutdown.ended hd i hi
    have honce := h.once c (List.mem_of_getElem? hc)
    refine ⟨c, hc, hover.imp (fun hp => ⟨hp, ?_⟩) fun hp => ⟨hp, ?_, honce.dropped hp⟩⟩
    · rw [honce.runs, hp]
      rfl
    · rw [honce.runs, hp]
      rfl
  refine ⟨fun c hc => ?_, hended, fun fs gs t hsplit hfs hd i hi hbefore => ?_, fun htame => ?_⟩
  · rw [(h.once c hc).runs]
    split <;> omega
  · rw [hsplit, run_append] at hrun
    obtain ⟨u, hu, hgs⟩ := hrun
    cases hfs.symm.trans hu
    have ht : Orderly cfg t := (orderly_init cfg).run hasync hflush
      (fun e he => hes e (by rw [hsplit]; exact List.mem_append_left gs he)) hfs
    obtain ⟨c, hc, hacc⟩ := accepted_run hasync hflush ht
      (fun e he => hes e (by rw [hsplit]; exact List.mem_append_right fs he)) hgs hi
    obtain ⟨d, hd', hrun' | ⟨hp, -, -⟩⟩ := hended hd i hbefore
    · exact ⟨d, hd', hrun'⟩
    · cases hc.symm.trans hd'
      rw [hp] at hacc
      simp [Accepted, SavePhase.runner] at hacc
  · have hgoes := goesOn_run hasync htame hrun
    exact ⟨hgoes.shutdown, hgoes.worker⟩

/-- One save is queued, one dropped, and the flush runs the first, which raises. -/
def flushedRun : List ServiceEvent :=
  [.save, .move 0 .reserve, .move 0 .put, .move 0 .ret, .save, .move 1 .reserve, .move 1 .put, .move 1 .drop,
    .move 1 .ret, .shutdown, .workerCheck, .join, .flushGet, .move 0 (.finish .exception), .move 0 .release, .flushGet]

/-- Shutdown's flush runs the queued save; the other found the queue full. -/
theorem saves_run_once_flushed : ∃ s, run (step queueing) (init queueing) flushedRun = some s ∧
    s.shutdown = .returned ∧ s.returnedBefore = [0, 1] ∧ s.calls = [⟨.released, 1, true⟩, ⟨.dropped, 0, true⟩] ∧
    (∀ i ∈ [0, 1], ∃ c, s.calls[i]? = some c ∧ ((c.phase = .released ∧ c.runs = 1) ∨
      (c.phase = .dropped ∧ c.runs = 0 ∧ (queueing.onFull = .drop ∨ queueing.onFull = .downgrade)))) ∧
    (∃ c, s.calls[0]? = some c ∧ c.phase = .released ∧ c.runs = 1) ∧ (s.worker = .exited → s.stop = true) := by
  have hqueued : run (step queueing) (init queueing) (flushedRun.take 4) = some ⟨1, false, [0], false, .checking,
      [⟨.queued, 0, true⟩], [], .notCalled, []⟩ := rfl
  obtain ⟨-, hreturned, hrun, htame⟩ := saves_run_once queueing rfl rfl flushedRun (by decide) _ rfl
  exact ⟨_, rfl, rfl, rfl, rfl, hreturned rfl,
    hrun (flushedRun.take 4) (flushedRun.drop 4) _ rfl hqueued rfl 0 (List.mem_singleton_self _) List.mem_cons_self,
    (htame (by decide)).2⟩

/-- A call in the queue that neither the worker nor `shutdown` will take. -/
structure Abandoned (s : CacheService) (i : Nat) : Prop where
  worker : s.worker = .exited
  shutdown : s.shutdown = .raised
  call : ∃ c, s.calls[i]? = some c ∧ c.phase = .queued ∧ c.runs = 0

theorem abandoned_set {calls : List SaveCall} {i j : Nat} {d d' : SaveCall} (hd : calls[j]? = some d)
    (hp : d.phase ≠ .queued) (h : ∃ c, calls[i]? = some c ∧ c.phase = .queued ∧ c.runs = 0) :
    ∃ c, (calls.set j d')[i]? = some c ∧ c.phase = .queued ∧ c.runs = 0 := by
  obtain ⟨c, hc, hqueued, hruns⟩ := h
  refine ⟨c, ?_, hqueued, hruns⟩
  rw [getElem?_setCall hd, if_neg, hc]
  rintro rfl
  cases hd.symm.trans hc
  exact hp hqueued

/-- No runner is left that would take the call from the queue. -/
theorem Abandoned.stepped {odd : Oddity → Prop} {i : Nat} (h : Abandoned s i) (hsound : Sound s)
    (hstep : Stepped cfg odd s s') : Abandoned s' i := by
  cases hstep with
  | called =>
    obtain ⟨c, hc, hp⟩ := h.call
    exact ⟨h.worker, h.shutdown, c, by rw [List.getElem?_append_left (List.getElem?_eq_some_iff.mp hc).1, hc], hp⟩
  | reserve hc hp => exact ⟨h.worker, h.shutdown, abandoned_set hc (by rw [hp]; decide) h.call⟩
  | put hc hp hasync => exact ⟨h.worker, h.shutdown, abandoned_set hc (by rw [hp]; decide) h.call⟩
  | inPlace hc hp => exact ⟨h.worker, h.shutdown, abandoned_set hc hp.facts.2.2.1 h.call⟩
  | drop hc hp hpolicy => exact ⟨h.worker, h.shutdown, abandoned_set hc (by rw [hp]; decide) h.call⟩
  | @release j d r ending hc hp =>
    have hcall := fun d' : SaveCall => @abandoned_set _ i _ _ d' hc (by rw [hp]; simp) h.call
    cases r with
    | worker =>
      have := (hsound.worker j).mpr ⟨d, hc, by rw [hp]; rfl⟩
      rw [h.worker] at this
      cases this
    | flush =>
      have := (hsound.flush j).mpr ⟨d, hc, by rw [hp]; rfl⟩
      rw [h.shutdown] at this
      cases this
    | direct => exact ⟨h.worker, h.shutdown, hcall _⟩
    | sync => exact ⟨h.worker, h.shutdown, hcall _⟩
  | @ret j d hc hdone =>
    obtain ⟨c, hci, hqueued, hruns⟩ := h.call
    refine ⟨h.worker, h.shutdown, ?_⟩
    simp only [setCall, getElem?_setCall hc]
    split
    · rename_i hij
      subst hij
      cases hc.symm.trans hci
      exact ⟨_, rfl, hqueued, hruns⟩
    · exact ⟨c, hci, hqueued, hruns⟩
  | takeWorker hw hq hc => cases hw.symm.trans h.worker
  | takeFlush hd hq hc => cases hd.symm.trans h.shutdown
  | worker w hw hw' hstop => rcases hw with hw | hw <;> cases hw.symm.trans h.worker
  | shutdown stop d hstop hd hd' => cases hd.symm.trans h.shutdown
  | join hd hw => cases hd.symm.trans h.shutdown
  | joinTimeout hd hlate => cases hd.symm.trans h.shutdown
  | flushed hd hq => cases hd.symm.trans h.shutdown
  | _ => exact ⟨h.worker, h.shutdown, h.call⟩

theorem abandoned_run {i : Nat} (h : Abandoned s i) (hsound : Sound s) {es : List ServiceEvent}
    (hrun : run (CacheService.step cfg) s es = some s') : Abandoned s' i := by
  refine (run_invariant_of (I := fun s => Sound s ∧ Abandoned s i) (E := fun _ => True) ?_ ⟨hsound, h⟩
    (fun _ _ => trivial) hrun).2
  rintro t e t' ⟨hsound, ht⟩ - hstep
  have hstepped : Stepped cfg (fun _ => True) t t' := step_stepped (fun _ _ => trivial) hstep
  exact ⟨hsound.stepped hstepped, ht.stepped hsound hstepped⟩

def twoQueued : ServiceConfig := { queueing with maxQueueSize := 2 }

/-- Two saves are queued; the flush runs the first, which raises a `BaseException`. -/
def fatalRun : List ServiceEvent :=
  [.save, .move 0 .reserve, .move 0 .put, .move 0 .ret, .save, .move 1 .reserve, .move 1 .put, .move 1 .ret,
    .shutdown, .workerCheck, .join, .flushGet, .move 0 (.finish .baseException), .move 0 .release]

/-- `shutdown` raises, and the second save, though it was queued and had returned, is never run. -/
theorem fatal_save_abandons : ∃ s, run (step twoQueued) (init twoQueued) fatalRun = some s ∧
    (∀ e ∈ fatalRun, e.ordinary = true) ∧ s.shutdown = .raised ∧ 1 ∈ s.returnedBefore ∧ 1 ∈ s.queue ∧
    ∀ later s', run (step twoQueued) s later = some s' →
      ∃ c, s'.calls[1]? = some c ∧ c.phase = .queued ∧ c.runs = 0 :=
  ⟨_, rfl, by decide, rfl, by decide, by decide, fun _ _ hrun =>
    (abandoned_run ⟨rfl, rfl, _, rfl, rfl, rfl⟩ (@reachable_sound twoQueued _ ⟨fatalRun, rfl⟩).1 hrun).call⟩

end CacheSeek.Proofs.SavesRunOnce
