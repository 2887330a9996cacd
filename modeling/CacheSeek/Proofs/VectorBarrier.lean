import CacheSeek.Proofs.SaveLife

namespace CacheSeek.Proofs.VectorBarrier
open CacheSeek.Lib CacheSeek.Service CacheService CacheSeek.Proofs.SaveLife

/-- Call `i` is in a phase of this kind. -/
def At (calls : List SaveCall) (i : Nat) (P : SavePhase → Prop) : Prop := ∃ c, calls[i]? = some c ∧ P c.phase

section Calls
variable {calls : List SaveCall} {i j : Nat} {c c' : SaveCall} {P : SavePhase → Prop}

theorem getElem?_setCall (hc : calls[i]? = some c) (c' : SaveCall) (j : Nat) :
    (calls.set i c')[j]? = if j = i then some c' else calls[j]? := by
  obtain ⟨hi, -⟩ := List.getElem?_eq_some_iff.mp hc
  by_cases hj : j = i
  · rw [if_pos hj, hj, List.getElem?_set_self hi]
  · rw [if_neg hj, List.getElem?_set_ne (Ne.symm hj)]

theorem at_self (hc : calls[i]? = some c) : At calls i P ↔ P c.phase := by
  constructor
  · rintro ⟨d, hd, hP⟩
    cases hc.symm.trans hd
    exact hP
  · exact fun hP => ⟨c, hc, hP⟩

theorem at_set (hc : calls[i]? = some c) : At (calls.set i c') j P ↔ if j = i then P c'.phase else At calls j P := by
  unfold At
  rw [getElem?_setCall hc]
  split
  · simp
  · rfl

/-- The call is of the kind after the step if it was before. -/
theorem at_set_same (hc : calls[i]? = some c) (hP : P c'.phase ↔ P c.phase) :
    At (calls.set i c') j P ↔ At calls j P := by
  rw [at_set hc]
  split
  · rename_i hj
    rw [hj, at_self hc, hP]
  · rfl

theorem at_append (c' : SaveCall) (hP : ¬ P c'.phase) : At (calls ++ [c']) j P ↔ At calls j P := by
  constructor
  · rintro ⟨d, hd, h⟩
    rcases concat_cases hd with hd | ⟨-, rfl⟩
    · exact ⟨d, hd, h⟩
    · exact absurd h hP
  · rintro ⟨d, hd, h⟩
    exact ⟨d, by rw [List.getElem?_append_left (List.getElem?_eq_some_iff.mp hd).1, hd], h⟩

/-- The slots that are reserved. -/
def slots (calls : List SaveCall) : Int := (calls.countP fun c => c.phase.holdsSlot : Nat)

/-- A move counts by the slot it takes or gives back. -/
theorem slots_set (hc : calls[i]? = some c) (c' : SaveCall) :
    slots (calls.set i c') =
      slots calls - (if c.phase.holdsSlot then 1 else 0) + (if c'.phase.holdsSlot then 1 else 0) := by
  obtain ⟨hi, hget⟩ := List.getElem?_eq_some_iff.mp hc
  have hcount : c.phase.holdsSlot = true → 0 < calls.countP fun c => c.phase.holdsSlot := fun hslot =>
    List.countP_pos_iff.mpr ⟨c, List.mem_of_getElem? hc, hslot⟩
  rw [slots, slots, List.countP_set hi, hget]
  cases hold : c.phase.holdsSlot <;> cases hnew : c'.phase.holdsSlot <;>
    simp only [hold, true_implies, Bool.false_eq_true, if_true, if_false] at hcount ⊢ <;> omega

theorem slots_append (c' : SaveCall) (h : c'.phase.holdsSlot = false) : slots (calls ++ [c']) = slots calls := by
  simp [slots, h]

theorem slots_nonneg : 0 ≤ slots calls := Int.natCast_nonneg _

end Calls

structure Sound (s : CacheService) : Prop where
  pending : s.pending = slots s.calls
  idle : s.idle = true ↔ s.pending = 0
  queue : ∀ i, i ∈ s.queue ↔ At s.calls i (· = .queued)
  nodup : s.queue.Nodup
  returned : ∀ (i : Nat) (c : SaveCall), s.calls[i]? = some c → c.returned = true → c.phase.callerDone = true
  worker : ∀ i, s.worker = .running i ↔ At s.calls i (·.runner = some .worker)
  flush : ∀ i, s.shutdown = .running i ↔ At s.calls i (·.runner = some .flush)

theorem sound_init (cfg : ServiceConfig) : Sound (init cfg) := by
  have hnone : ∀ i P, ¬ At (init cfg).calls i P := fun i P ⟨c, hc, _⟩ => nomatch hc
  refine ⟨rfl, by simp [init], fun i => ?_, List.nodup_nil, fun i c hc => ?_, fun i => ?_, fun i => ?_⟩
  · exact ⟨fun h => (nomatch h), fun h => absurd h (hnone i _)⟩
  · cases hc
  · refine ⟨fun h => ?_, fun h => absurd h (hnone i _)⟩
    simp only [init] at h
    split at h <;> cases h
  · exact ⟨fun h => (nomatch h), fun h => absurd h (hnone i _)⟩

section Steps
variable {cfg : ServiceConfig} {odd : Oddity → Prop} {s s' : CacheService} {i : Nat} {c : SaveCall}

/-- A call that is not returned keeps the facts about returned calls. -/
theorem returned_set (h : Sound s) (hc : s.calls[i]? = some c) (c' : SaveCall)
    (hc' : c'.returned = true → c'.phase.callerDone = true) :
    ∀ (j : Nat) (d : SaveCall), (s.calls.set i c')[j]? = some d → d.returned = true → d.phase.callerDone = true := by
  intro j d hd
  rw [getElem?_setCall hc] at hd
  split at hd
  · cases hd
    exact hc'
  · exact h.returned j d hd

theorem Sound.called (h : Sound s) : Sound { s with calls := s.calls ++ [⟨.called, 0, false⟩] } := by
  refine ⟨?_, h.idle, fun i => ?_, h.nodup, fun i c hc => ?_, fun i => ?_, fun i => ?_⟩
  · rw [slots_append _ rfl]
    exact h.pending
  · rw [at_append _ (by simp)]
    exact h.queue i
  · rcases concat_cases hc with hc | ⟨-, rfl⟩
    · exact h.returned i c hc
    · exact fun hret => nomatch hret
  · rw [at_append _ (by simp [SavePhase.runner])]
    exact h.worker i
  · rw [at_append _ (by simp [SavePhase.runner])]
    exact h.flush i

/-- A call changes its phase, off the queue and in nobody's hands who keeps track of it. -/
theorem Sound.moved (h : Sound s) (hc : s.calls[i]? = some c) {p : SavePhase} {n : Nat} {pending : Int} {idle : Bool}
    (hpending : pending = s.pending - (if c.phase.holdsSlot then 1 else 0) + (if p.holdsSlot then 1 else 0))
    (hidle : idle = true ↔ pending = 0) (hqueue : p = .queued ↔ c.phase = .queued)
    (hworker : p.runner = some .worker ↔ c.phase.runner = some .worker)
    (hflush : p.runner = some .flush ↔ c.phase.runner = some .flush)
    (hdone : c.phase.callerDone = true → p.callerDone = true) :
    Sound { s with pending := pending, idle := idle, calls := s.calls.set i ⟨p, n, c.returned⟩ } := by
  refine ⟨?_, hidle, fun j => ?_, h.nodup, returned_set h hc _ fun hret => hdone (h.returned i c hc hret),
    fun j => ?_, fun j => ?_⟩
  · rw [slots_set hc, ← h.pending]
    exact hpending
  · rw [at_set_same hc hqueue]
    exact h.queue j
  · rw [at_set_same hc hworker]
    exact h.worker j
  · rw [at_set_same hc hflush]
    exact h.flush j

theorem Sound.pending_nonneg (h : Sound s) : 0 ≤ s.pending := by
  rw [h.pending]
  exact slots_nonneg

/-- A slot that is reserved counts: the release does not clamp. -/
theorem Sound.pending_pos (h : Sound s) (hc : s.calls[i]? = some c) (hslot : c.phase.holdsSlot = true) :
    0 < s.pending := by
  have hcount : 0 < s.calls.countP fun c => c.phase.holdsSlot :=
    List.countP_pos_iff.mpr ⟨c, List.mem_of_getElem? hc, hslot⟩
  rw [h.pending, slots]
  exact Int.natCast_pos.mpr hcount

/-- The event is set by the release that brings the counter to 0. -/
theorem Sound.release_pending (h : Sound s) (hc : s.calls[i]? = some c) (hslot : c.phase.holdsSlot = true) :
    s.releaseVectorUpdate.pending = s.pending - 1 ∧ (s.releaseVectorUpdate.idle = true ↔ s.pending - 1 = 0) := by
  have hpos := h.pending_pos hc hslot
  have hmax : max 0 (s.pending - 1) = s.pending - 1 := by omega
  have hidle : s.idle = false := by
    rw [← Bool.not_eq_true, h.idle]
    omega
  refine ⟨hmax, ?_⟩
  simp only [releaseVectorUpdate, hmax, hidle]
  split <;> simp_all

/-- A reservation clears the event. -/
theorem Sound.reserve (h : Sound s) (hc : s.calls[i]? = some c) (hp : c.phase = .called) :
    Sound (s.reserveVectorUpdate.setCall i { c with phase := .reserved }) := by
  have hpos := h.pending_nonneg
  refine h.moved hc ?_ ?_ (by rw [hp]; decide) (by rw [hp]; decide) (by rw [hp]; decide) (by rw [hp]; decide)
  · rw [hp]
    change s.pending + 1 = s.pending - 0 + 1
    omega
  · exact iff_of_false Bool.false_ne_true (by change s.pending + 1 ≠ 0; omega)

theorem Sound.inPlace (h : Sound s) (hc : s.calls[i]? = some c) {p : SavePhase} {n : Nat}
    (hp : InPlace cfg odd c.phase p n) : Sound (s.setCall i ⟨p, c.runs + n, c.returned⟩) := by
  obtain ⟨hslot, hslot', hq, hq', hworker, hflush, hdone⟩ := hp.facts
  refine h.moved hc ?_ h.idle ⟨fun heq => absurd heq hq', fun heq => absurd heq hq⟩ hworker hflush hdone
  rw [if_pos hslot, if_pos hslot']
  omega

theorem Sound.drop (h : Sound s) (hc : s.calls[i]? = some c) (hp : c.phase = .full) :
    Sound (s.releaseVectorUpdate.setCall i { c with phase := .dropped }) := by
  obtain ⟨hpending, hidle⟩ := h.release_pending hc (by rw [hp]; rfl)
  refine h.moved hc ?_ ?_ (by rw [hp]; decide) (by rw [hp]; decide) (by rw [hp]; decide) (by rw [hp]; decide)
  · rw [hp]
    exact hpending.trans (by simp [SavePhase.holdsSlot])
  · exact hidle.trans (by rw [hpending])

theorem Sound.ret (h : Sound s) (hc : s.calls[i]? = some c) (hdone : c.phase.callerDone = true) :
    Sound (s.setCall i { c with returned := true }) := by
  have hsame : ∀ j P, At s.calls j P ↔ At (s.calls.set i { c with returned := true }) j P := fun j P =>
    (@at_set_same _ _ _ _ { c with returned := true } P hc Iff.rfl).symm
  refine ⟨?_, h.idle, fun j => (h.queue j).trans (hsame j _), h.nodup, returned_set h hc _ fun _ => hdone,
    fun j => (h.worker j).trans (hsame j _), fun j => (h.flush j).trans (hsame j _)⟩
  have hslots : slots (s.calls.set i { c with returned := true }) = slots s.calls := by
    rw [slots_set hc]
    dsimp only
    omega
  exact h.pending.trans hslots.symm

/-- Nobody was of the kind, and now the call is. -/
theorem at_set_gain {calls : List SaveCall} {c' : SaveCall} {P : SavePhase → Prop} (hc : calls[i]? = some c)
    (hnone : ∀ j, ¬ At calls j P) (hP : P c'.phase) (j : Nat) : At (calls.set i c') j P ↔ j = i := by
  rw [at_set hc]
  split
  · rename_i hj
    exact iff_of_true hP hj
  · rename_i hj
    exact iff_of_false (hnone j) hj

/-- Only the call was of the kind, and is no longer. -/
theorem at_set_loss {calls : List SaveCall} {c' : SaveCall} {P : SavePhase → Prop} (hc : calls[i]? = some c)
    (honly : ∀ j, At calls j P → j = i) (hP : ¬ P c'.phase) (j : Nat) : ¬ At (calls.set i c') j P := by
  rw [at_set hc]
  split
  · exact hP
  · rename_i hj
    exact fun h => hj (honly j h)

theorem Sound.put (h : Sound s) (hc : s.calls[i]? = some c) (hp : c.phase = .reserved) :
    Sound ({ s with queue := s.queue ++ [i] }.setCall i { c with phase := .queued }) := by
  have hnot : i ∉ s.queue := by
    rw [h.queue i, at_self hc, hp]
    decide
  refine ⟨?_, h.idle, fun j => ?_, ?_, returned_set h hc _ fun _ => rfl, fun j => ?_, fun j => ?_⟩
  · rw [setCall, slots_set hc, ← h.pending]
    simp [hp, SavePhase.holdsSlot]
  · change j ∈ s.queue ++ [i] ↔ At (s.calls.set i _) j _
    rw [at_set hc, List.mem_append, h.queue j, List.mem_singleton]
    split
    · rename_i hj
      exact iff_of_true (Or.inr hj) rfl
    · rename_i hj
      exact or_iff_left hj
  · exact List.nodup_append.mpr ⟨h.nodup, by simp, fun a ha b hb hab => by
      rw [List.mem_singleton.mp hb] at hab
      exact hnot (hab ▸ ha)⟩
  · exact (h.worker j).trans (at_set_same hc (by simp [hp, SavePhase.runner])).symm
  · exact (h.flush j).trans (at_set_same hc (by simp [hp, SavePhase.runner])).symm

/-- What taking the first item leaves of the queue. -/
theorem Sound.queue_taken (h : Sound s) (hc : s.calls[i]? = some c) {queue : List Nat} (hq : s.queue = i :: queue)
    {c' : SaveCall} (hp : c'.phase ≠ .queued) (j : Nat) : j ∈ queue ↔ At (s.calls.set i c') j (· = .queued) := by
  have hnodup := h.nodup
  rw [hq, List.nodup_cons] at hnodup
  rw [at_set hc]
  split
  · rename_i hj
    exact iff_of_false (hj ▸ hnodup.1) hp
  · rename_i hj
    rw [← h.queue j, hq, List.mem_cons, or_iff_right hj]

/-- Only a queued save is in the queue. -/
theorem Sound.taken (h : Sound s) {queue : List Nat} (hq : s.queue = i :: queue) (hc : s.calls[i]? = some c) :
    c.phase = .queued := by
  have hi : i ∈ s.queue := by simp [hq]
  exact (at_self hc).mp ((h.queue i).mp hi)

/-- A save that starts keeps the slot it has. -/
theorem slots_start {calls : List SaveCall} (hc : calls[i]? = some c) (hslot : c.phase.holdsSlot = true) (r : Runner) :
    slots (calls.set i (c.start r)) = slots calls := by
  rw [slots_set hc, if_pos hslot, if_pos (by rfl)]
  omega

theorem Sound.takeWorker (h : Sound s) {queue : List Nat} (hw : s.worker = .getting) (hq : s.queue = i :: queue)
    (hc : s.calls[i]? = some c) :
    Sound { { s with queue := queue }.setCall i (c.start .worker) with worker := .running i } := by
  have hp := h.taken hq hc
  have hnodup := h.nodup
  rw [hq, List.nodup_cons] at hnodup
  refine ⟨?_, h.idle, h.queue_taken hc hq (by simp [SaveCall.start]), hnodup.2, returned_set h hc _ fun _ => rfl,
    fun j => ?_, fun j => ?_⟩
  · exact h.pending.trans (slots_start hc (by rw [hp]; rfl) _).symm
  · have hnone : ∀ k, ¬ At s.calls k (·.runner = some .worker) := fun k hk => by
      have := (h.worker k).mpr hk
      rw [hw] at this
      cases this
    change WorkerPc.running i = .running j ↔ At (s.calls.set i _) j _
    rw [at_set_gain hc hnone rfl, WorkerPc.running.injEq, eq_comm]
  · exact (h.flush j).trans (at_set_same hc (by simp [hp, SavePhase.runner, SaveCall.start])).symm

theorem Sound.takeFlush (h : Sound s) {queue : List Nat} (hd : s.shutdown = .flushing) (hq : s.queue = i :: queue)
    (hc : s.calls[i]? = some c) :
    Sound { { s with queue := queue }.setCall i (c.start .flush) with shutdown := .running i } := by
  have hp := h.taken hq hc
  have hnodup := h.nodup
  rw [hq, List.nodup_cons] at hnodup
  refine ⟨?_, h.idle, h.queue_taken hc hq (by simp [SaveCall.start]), hnodup.2, returned_set h hc _ fun _ => rfl,
    fun j => ?_, fun j => ?_⟩
  · exact h.pending.trans (slots_start hc (by rw [hp]; rfl) _).symm
  · exact (h.worker j).trans (at_set_same hc (by simp [hp, SavePhase.runner, SaveCall.start])).symm
  · have hnone : ∀ k, ¬ At s.calls k (·.runner = some .flush) := fun k hk => by
      have := (h.flush k).mpr hk
      rw [hd] at this
      cases this
    change ShutdownPc.running i = .running j ↔ At (s.calls.set i _) j _
    rw [at_set_gain hc hnone rfl, ShutdownPc.running.injEq, eq_comm]

theorem Sound.release (h : Sound s) (r : Runner) (ending : Ending) (hc : s.calls[i]? = some c)
    (hp : c.phase = .ended r ending) :
    Sound ((s.releaseVectorUpdate.proceed r ending).setCall i { c with phase := .released }) := by
  obtain ⟨hpending, hidle⟩ := h.release_pending hc (by rw [hp]; rfl)
  have hslots : s.releaseVectorUpdate.pending = slots (s.calls.set i { c with phase := .released }) := by
    rw [hpending, slots_set hc, ← h.pending, hp]
    simp [SavePhase.holdsSlot]
  have hidle' : s.releaseVectorUpdate.idle = true ↔ s.releaseVectorUpdate.pending = 0 := by rw [hidle, hpending]
  have hqueue : ∀ j, j ∈ s.queue ↔ At (s.calls.set i { c with phase := .released }) j (· = .queued) := fun j =>
    (h.queue j).trans (at_set_same hc (by rw [hp]; simp)).symm
  have hreturned := returned_set h hc { c with phase := .released } fun _ => rfl
  have hworker : r ≠ .worker → ∀ j, s.worker = .running j ↔
      At (s.calls.set i { c with phase := .released }) j (·.runner = some .worker) := fun hr j =>
    (h.worker j).trans (at_set_same hc (by rw [hp]; simp [SavePhase.runner, hr])).symm
  have hflush : r ≠ .flush → ∀ j, s.shutdown = .running j ↔
      At (s.calls.set i { c with phase := .released }) j (·.runner = some .flush) := fun hr j =>
    (h.flush j).trans (at_set_same hc (by rw [hp]; simp [SavePhase.runner, hr])).symm
  cases r with
  | worker =>
    have hrunning : s.worker = .running i := (h.worker i).mpr ((at_self hc).mpr (by rw [hp]; rfl))
    have honly : ∀ j, At s.calls j (·.runner = some .worker) → j = i := fun j hj => by
      have := (h.worker j).mpr hj
      rw [hrunning] at this
      exact (WorkerPc.running.inj this).symm
    refine ⟨hslots, hidle', hqueue, h.nodup, hreturned, fun j => ?_, hflush (by decide)⟩
    refine iff_of_false (fun hj => ?_) (at_set_loss hc honly (by simp [SavePhase.runner]) j)
    simp only [setCall, proceed] at hj
    split at hj <;> cases hj
  | flush =>
    have hrunning : s.shutdown = .running i := (h.flush i).mpr ((at_self hc).mpr (by rw [hp]; rfl))
    have honly : ∀ j, At s.calls j (·.runner = some .flush) → j = i := fun j hj => by
      have := (h.flush j).mpr hj
      rw [hrunning] at this
      exact (ShutdownPc.running.inj this).symm
    refine ⟨hslots, hidle', hqueue, h.nodup, hreturned, hworker (by decide), fun j => ?_⟩
    refine iff_of_false (fun hj => ?_) (at_set_loss hc honly (by simp [SavePhase.runner]) j)
    simp only [setCall, proceed] at hj
    split at hj <;> cases hj
  | direct => exact ⟨hslots, hidle', hqueue, h.nodup, hreturned, hworker (by decide), hflush (by decide)⟩
  | sync => exact ⟨hslots, hidle', hqueue, h.nodup, hreturned, hworker (by decide), hflush (by decide)⟩

/-- Only lookups, the worker's or the shutdown's own place change. -/
theorem Sound.shutdown (h : Sound s) (stop : Bool) {d : ShutdownPc} (before : List Nat)
    (hd : ∀ i, s.shutdown ≠ .running i) (hd' : ∀ i, d ≠ .running i) :
    Sound { s with stop := stop, shutdown := d, returnedBefore := before } :=
  ⟨h.pending, h.idle, h.queue, h.nodup, h.returned, h.worker, fun i =>
    iff_of_false (hd' i) fun hi => hd i ((h.flush i).mpr hi)⟩

/-- The counter is the number of slots, and the event says whether it is 0. -/
theorem Sound.stepped (h : Sound s) (hstep : Stepped cfg odd s s') : Sound s' := by
  cases hstep with
  | same => exact h
  | called => exact h.called
  | reserve hc hp => exact h.reserve hc hp
  | put hc hp hasync => exact h.put hc hp
  | inPlace hc hp => exact h.inPlace hc hp
  | drop hc hp hpolicy => exact h.drop hc hp
  | release r ending hc hp => exact h.release r ending hc hp
  | ret hc hdone => exact h.ret hc hdone
  | takeWorker hw hq hc => exact h.takeWorker hw hq hc
  | takeFlush hd hq hc => exact h.takeFlush hd hq hc
  | lookup => exact ⟨h.pending, h.idle, h.queue, h.nodup, h.returned, h.worker, h.flush⟩
  | pass hk hidle => exact ⟨h.pending, h.idle, h.queue, h.nodup, h.returned, h.worker, h.flush⟩
  | timeout hk => exact ⟨h.pending, h.idle, h.queue, h.nodup, h.returned, h.worker, h.flush⟩
  | worker w hw hw' hstop =>
    refine ⟨h.pending, h.idle, h.queue, h.nodup, h.returned, fun i => iff_of_false (hw' i) fun hi => ?_, h.flush⟩
    rcases hw with hw | hw <;> cases hw.symm.trans ((h.worker i).mpr hi)
  | shutdown stop d hstop hd hd' =>
    refine h.shutdown stop s.returnedCalls (fun i => by rw [hd]; simp) fun i => ?_
    rcases hd' with rfl | ⟨-, rfl⟩ <;> simp
  | join hd hw =>
    refine h.shutdown s.stop s.returnedBefore (fun i => by rw [hd]; simp) fun i => ?_
    split <;> simp
  | joinTimeout hd hodd =>
    exact h.shutdown s.stop s.returnedBefore (fun i => by rw [hd]; simp) fun i => by simp
  | flushed hd hq =>
    exact h.shutdown s.stop s.returnedBefore (fun i => by rw [hd]; simp) fun i => by simp

/-- The list of calls after a step. -/
theorem Sound.calls_stepped (h : Sound s) (hstep : Stepped cfg odd s s') :
    s'.calls = s.calls ∨ s'.calls = s.calls ++ [⟨.called, 0, false⟩] ∨
      ∃ i c c', s.calls[i]? = some c ∧ Moved cfg odd c c' ∧ s'.calls = s.calls.set i c' := by
  cases hstep with
  | called => exact Or.inr (Or.inl rfl)
  | @reserve i c hc hp =>
    exact Or.inr (Or.inr ⟨i, c, _, hc, .phase (by rw [hp]; exact .reserve), rfl⟩)
  | @put i c hc hp hasync =>
    exact Or.inr (Or.inr ⟨i, c, _, hc, .phase (by rw [hp]; exact .put hasync), rfl⟩)
  | @inPlace i c p n hc hp => exact Or.inr (Or.inr ⟨i, c, _, hc, .phase (.inPlace hp), rfl⟩)
  | @drop i c hc hp hpolicy =>
    exact Or.inr (Or.inr ⟨i, c, _, hc, .phase (by rw [hp]; exact .drop hpolicy), rfl⟩)
  | @release i c r ending hc hp =>
    refine Or.inr (Or.inr ⟨i, c, _, hc, .phase (by rw [hp]; exact .release r ending), ?_⟩)
    cases r <;> rfl
  | @ret i c hc hdone => exact Or.inr (Or.inr ⟨i, c, _, hc, .ret hdone, rfl⟩)
  | @takeWorker i c queue hw hq hc =>
    exact Or.inr (Or.inr ⟨i, c, _, hc, .phase (by rw [h.taken hq hc]; exact .take .worker (Or.inl rfl)), rfl⟩)
  | @takeFlush i c queue hd hq hc =>
    exact Or.inr (Or.inr ⟨i, c, _, hc, .phase (by rw [h.taken hq hc]; exact .take .flush (Or.inr rfl)), rfl⟩)
  | _ => exact Or.inl rfl

/-- What every move keeps holds of each call. -/
theorem Sound.calls_keep (h : Sound s) (hstep : Stepped cfg odd s s') {P : SaveCall → Prop}
    (hnew : P ⟨.called, 0, false⟩)
    (hmove : ∀ c c', P c → Moved cfg odd c c' → P c') (hs : ∀ c ∈ s.calls, P c) : ∀ c ∈ s'.calls, P c := by
  rcases h.calls_stepped hstep with heq | heq | ⟨i, c, c', hc, hmoved, heq⟩ <;> rw [heq]
  · exact hs
  · intro d hd
    rcases List.mem_append.mp hd with hd | hd
    · exact hs d hd
    · rw [List.mem_singleton.mp hd]
      exact hnew
  · intro d hd
    rcases List.mem_or_eq_of_mem_set hd with hd | rfl
    · exact hs d hd
    · exact hmove c d (hs c (List.mem_of_getElem? hc)) hmoved

/-- A call stays in the list, where it is or one move on. -/
theorem Sound.call_stepped (h : Sound s) (hstep : Stepped cfg odd s s') (hc : s.calls[i]? = some c) :
    ∃ c', s'.calls[i]? = some c' ∧ (c' = c ∨ Moved cfg odd c c') := by
  rcases h.calls_stepped hstep with heq | heq | ⟨j, d, d', hd, hmoved, heq⟩ <;> rw [heq]
  · exact ⟨c, hc, Or.inl rfl⟩
  · exact ⟨c, by rw [List.getElem?_append_left (List.getElem?_eq_some_iff.mp hc).1, hc], Or.inl rfl⟩
  · rw [getElem?_setCall hd]
    split
    · rename_i hij
      rw [← hij, hc] at hd
      cases hd
      exact ⟨d', rfl, Or.inr hmoved⟩
    · exact ⟨c, hc, Or.inl rfl⟩

end Steps

variable {cfg : ServiceConfig} {odd : Oddity → Prop} {s s' : CacheService}

/-- The calls a lookup waits for have returned; once it has passed, they are settled. -/
def LookupsOk (s : CacheService) : Prop := ∀ k ∈ s.lookups, ∀ i ∈ k.before, ∃ c, s.calls[i]? = some c ∧
  c.returned = true ∧ (k.pc = .passed → Settled c)

theorem mem_returnedCalls {i : Nat} (h : i ∈ s.returnedCalls) : ∃ c, s.calls[i]? = some c ∧ c.returned = true := by
  have hany := (List.mem_filter.mp h).2
  cases hc : s.calls[i]? with
  | none => simp [hc] at hany
  | some c => exact ⟨c, rfl, by simpa [hc] using hany⟩

/-- A call that has returned is settled when no slot is reserved. -/
theorem Sound.settled (h : Sound s) (hstarted : ∀ c ∈ s.calls, Started c) (hidle : s.idle = true) {i : Nat}
    {c : SaveCall} (hc : s.calls[i]? = some c) (hret : c.returned = true) : Settled c := by
  have hslot : c.phase.holdsSlot = false := by
    rw [← Bool.not_eq_true]
    intro hslot
    have hpos := h.pending_pos hc hslot
    rw [h.idle.mp hidle] at hpos
    omega
  have hdone := h.returned i c hc hret
  have hrun := hstarted c (List.mem_of_getElem? hc)
  unfold Settled
  cases hp : c.phase with
  | released => exact Or.inl ⟨rfl, hrun (by rw [hp]; rfl)⟩
  | dropped => exact Or.inr rfl
  | called =>
    rw [hp] at hdone
    cases hdone
  | _ =>
    rw [hp] at hslot
    cases hslot

/-- A lookup passes when no slot is held, so all it waited for is over. -/
theorem LookupsOk.stepped (h : LookupsOk s) (hsound : Sound s) (hstarted : ∀ c ∈ s.calls, Started c)
    (hstep : Stepped cfg odd s s') : LookupsOk s' := by
  have hkeep : ∀ k ∈ s.lookups, ∀ i ∈ k.before, ∃ c, s'.calls[i]? = some c ∧ c.returned = true ∧
      (k.pc = .passed → Settled c) := by
    intro k hk i hi
    obtain ⟨c, hc, hret, hsettled⟩ := h k hk i hi
    obtain ⟨c', hc', rfl | hmoved⟩ := hsound.call_stepped hstep hc
    · exact ⟨c', hc', hret, hsettled⟩
    · exact ⟨c', hc', hmoved.returned hret, fun hp => hmoved.settled (hsettled hp)⟩
  cases hstep with
  | lookup =>
    intro k hk i hi
    rcases List.mem_append.mp hk with hk | hk
    · exact hkeep k hk i hi
    · rw [List.mem_singleton.mp hk] at hi ⊢
      obtain ⟨c, hc, hret⟩ := mem_returnedCalls hi
      exact ⟨c, hc, hret, fun hp => nomatch hp⟩
  | @pass l k₀ hk₀ hidle =>
    intro k hk i hi
    rcases List.mem_or_eq_of_mem_set hk with hk | rfl
    · exact hkeep k hk i hi
    · obtain ⟨c, hc, hret, -⟩ := h k₀ (List.mem_of_getElem? hk₀) i hi
      exact ⟨c, hc, hret, fun _ => hsound.settled hstarted hidle hc hret⟩
  | @timeout l k₀ hk₀ =>
    intro k hk i hi
    rcases List.mem_or_eq_of_mem_set hk with hk | rfl
    · exact hkeep k hk i hi
    · obtain ⟨c, hc, hret, -⟩ := h k₀ (List.mem_of_getElem? hk₀) i hi
      exact ⟨c, hc, hret, fun hp => nomatch hp⟩
  | release r ending hc hp =>
    cases r <;> exact hkeep
  | _ => exact hkeep

/-- In every interleaving, by the three step lemmas. -/
theorem reachable_sound (h : Reachable (step cfg) (init cfg) s) :
    Sound s ∧ (∀ c ∈ s.calls, Started c) ∧ LookupsOk s := by
  refine h.invariant (I := fun s => Sound s ∧ (∀ c ∈ s.calls, Started c) ∧ LookupsOk s) ?_
    ⟨sound_init cfg, (fun c hc => nomatch hc), fun k hk => nomatch hk⟩
  rintro s e s' ⟨hsound, hstarted, hlookups⟩ he
  have hstep : Stepped cfg (fun _ => True) s s' := step_stepped (fun _ _ => trivial) he
  exact ⟨hsound.stepped hstep, hsound.calls_keep hstep (fun hp => nomatch hp) (fun c c' => Moved.started) hstarted,
    hlookups.stepped hsound hstarted hstep⟩

def queueing : ServiceConfig where
  asyncSave := true
  maxQueueSize := 1
  onFull := .drop
  flushOnShutdown := true
  cacheMode := .readWrite
  vectorWaitTimeout := true

end CacheSeek.Proofs.VectorBarrier
