import CacheSeek.Lib.Run

namespace CacheSeek.Service

inductive OnFull where
  | drop
  | downgrade
  | block
  | sync
  deriving DecidableEq

inductive CacheMode where
  | readWrite
  | readOnly
  | writeOnly
  deriving DecidableEq

/-- The settings of a `CacheService`. A queue size that is not positive means no bound. -/
structure ServiceConfig where
  asyncSave : Bool
  maxQueueSize : Int
  onFull : OnFull
  flushOnShutdown : Bool
  cacheMode : CacheMode
  vectorWaitTimeout : Bool

/-- Who drives a save: the worker's loop, a caller that awaits it (`async_save=False`),
a caller that found the queue full (`on_full=sync`), or the flush of `shutdown`. -/
inductive Runner where
  | worker
  | direct
  | sync
  | flush
  deriving DecidableEq

/-- Without a loop of its own a runner restarts a save that suspends, on a fallback thread. -/
def Runner.fallsBack : Runner → Bool
  | .sync => true
  | .flush => true
  | _ => false

/-- How a strategy's save ends. Only an `Exception` is caught by `_safe_strategy_save`. -/
inductive Ending where
  | returned
  | exception
  | baseException
  deriving DecidableEq

/-- Where a save is: `running` and `fallback` stand for the strategy's save under way,
`ended` for one that is over while its slot is still reserved. -/
inductive SavePhase where
  | called
  | reserved
  | full
  | queued
  | running (r : Runner)
  | fallback (r : Runner)
  | ended (r : Runner) (ending : Ending)
  | released
  | dropped
  deriving DecidableEq

/-- From the reservation to the release of the slot. -/
def SavePhase.holdsSlot : SavePhase → Bool
  | .called => false
  | .released => false
  | .dropped => false
  | _ => true

def SavePhase.runner : SavePhase → Option Runner
  | .running r => some r
  | .fallback r => some r
  | .ended r _ => some r
  | _ => none

/-- Nothing is left for the caller to do: the save is in the queue or was taken from it, or is over. -/
def SavePhase.callerDone (p : SavePhase) : Bool :=
  p = .queued || p = .released || p = .dropped || p.runner = some .worker || p.runner = some .flush

/-- A call of `save`, with how often it has had the strategy's save started. It has `returned`
once its caller is given back control, a `BaseException` included. -/
structure SaveCall where
  phase : SavePhase
  runs : Nat
  returned : Bool
  deriving DecidableEq

def SaveCall.start (c : SaveCall) (r : Runner) : SaveCall := { c with phase := .running r, runs := c.runs + 1 }

inductive WorkerPc where
  | checking
  | getting
  | running (i : Nat)
  | exited
  deriving DecidableEq

inductive ShutdownPc where
  | notCalled
  | joining
  | flushing
  | running (i : Nat)
  | returned
  | raised
  deriving DecidableEq

inductive LookupPc where
  | waiting
  | passed
  | timedOut
  deriving DecidableEq

/-- A call of `lookup` at the barrier, with the save calls that had returned when it started. -/
structure LookupCall where
  before : List Nat
  pc : LookupPc

/-- A service with the calls made so far. `returnedBefore` are the save calls that had
returned when `shutdown` was called. -/
structure CacheService where
  pending : Int
  idle : Bool
  queue : List Nat
  stop : Bool
  worker : WorkerPc
  calls : List SaveCall
  lookups : List LookupCall
  shutdown : ShutdownPc
  returnedBefore : List Nat

inductive SaveMove where
  | reserve
  | put
  | drop
  | runInline
  | suspend
  | finish (ending : Ending)
  | release
  | ret
  deriving DecidableEq

inductive ServiceEvent where
  | save
  | move (i : Nat) (m : SaveMove)
  | lookup
  | pass (l : Nat)
  | timeout (l : Nat)
  | workerCheck
  | workerGet
  | shutdown
  | join
  | joinTimeout
  | flushGet
  deriving DecidableEq

/-- What can go wrong: a save suspends, the worker outlives the join of `shutdown`, or a save ends in
a `BaseException`. -/
inductive Oddity where
  | suspends
  | late
  | fatal
  deriving DecidableEq

def ServiceEvent.oddity : ServiceEvent → Option Oddity
  | .move _ .suspend => some .suspends
  | .joinTimeout => some .late
  | .move _ (.finish .baseException) => some .fatal
  | _ => none

/-- Neither a save that suspends nor a worker that outlives the join of `shutdown`. -/
def ServiceEvent.ordinary (e : ServiceEvent) : Bool := e.oddity ≠ some .suspends && e.oddity ≠ some .late

namespace CacheService

def init (cfg : ServiceConfig) : CacheService where
  pending := 0
  idle := true
  queue := []
  stop := false
  worker := if cfg.asyncSave then .checking else .exited
  calls := []
  lookups := []
  shutdown := .notCalled
  returnedBefore := []

/-- `_reserve_vector_update`. What is done under the lock is one step: the flag, which
`lookup` reads without it, changes last there. -/
def reserveVectorUpdate (s : CacheService) : CacheService := { s with pending := s.pending + 1, idle := false }

def releaseVectorUpdate (s : CacheService) : CacheService :=
  let n := max 0 (s.pending - 1)
  { s with pending := n, idle := if n = 0 then true else s.idle }

def full (cfg : ServiceConfig) (s : CacheService) : Bool :=
  0 < cfg.maxQueueSize && cfg.maxQueueSize ≤ s.queue.length

def setCall (s : CacheService) (i : Nat) (c : SaveCall) : CacheService := { s with calls := s.calls.set i c }

/-- The runner goes on after a save. What is not an `Exception` ends the worker's loop, and leaves
the flush and with it `shutdown`. -/
def proceed (s : CacheService) (r : Runner) (ending : Ending) : CacheService :=
  match r with
  | .worker => { s with worker := if ending = .baseException then .exited else .checking }
  | .flush => { s with shutdown := if ending = .baseException then .raised else .flushing }
  | _ => s

def returnedCalls (s : CacheService) : List Nat :=
  (List.range s.calls.length).filter fun i => (s.calls[i]?).any fun c => c.returned

def advance (cfg : ServiceConfig) (s : CacheService) (i : Nat) (c : SaveCall) : SaveMove → Option CacheService
  | .reserve =>
    if c.phase = .called then some (s.reserveVectorUpdate.setCall i { c with phase := .reserved }) else none
  | .put =>
    if c.phase = .reserved ∧ cfg.asyncSave = true then
      if s.full cfg then
        -- a blocking put waits until there is room
        if cfg.onFull = .block then none else some (s.setCall i { c with phase := .full })
      else some ({ s with queue := s.queue ++ [i] }.setCall i { c with phase := .queued })
    else none
  | .drop =>
    if c.phase = .full ∧ (cfg.onFull = .drop ∨ cfg.onFull = .downgrade) then
      some (s.releaseVectorUpdate.setCall i { c with phase := .dropped })
    else none
  | .runInline =>
    if c.phase = .full ∧ cfg.onFull = .sync then some (s.setCall i (c.start .sync))
    else if c.phase = .reserved ∧ cfg.asyncSave = false then some (s.setCall i (c.start .direct))
    else none
  | .suspend =>
    match c.phase with
    | .running r =>
      if r.fallsBack then some (s.setCall i { c with phase := .fallback r, runs := c.runs + 1 }) else none
    | _ => none
  | .finish ending =>
    match c.phase with
    | .running r => some (s.setCall i { c with phase := .ended r ending })
    -- what the fallback thread raises is logged and goes no further
    | .fallback r => some (s.setCall i { c with phase := .ended r .returned })
    | _ => none
  | .release =>
    match c.phase with
    | .ended r ending => some ((s.releaseVectorUpdate.proceed r ending).setCall i { c with phase := .released })
    | _ => none
  | .ret =>
      if c.phase.callerDone = true ∧ c.returned = false then some (s.setCall i { c with returned := true })
      else none

/-- The first of the queue is taken out and run. -/
def take (s : CacheService) (r : Runner) : Option (Nat × CacheService) :=
  match s.queue with
  | [] => none
  | i :: queue => (s.calls[i]?).map fun c => (i, { s with queue := queue }.setCall i (c.start r))

def step (cfg : ServiceConfig) (s : CacheService) : ServiceEvent → Option CacheService
  | .save =>
    if cfg.cacheMode = .readOnly then some s else some { s with calls := s.calls ++ [⟨.called, 0, false⟩] }
  | .move i m =>
    match s.calls[i]? with
    | none => none
    | some c => s.advance cfg i c m
  | .lookup =>
    if cfg.cacheMode = .writeOnly then some s
    else some { s with lookups := s.lookups ++ [⟨s.returnedCalls, .waiting⟩] }
  | .pass l =>
    match s.lookups[l]? with
    | none => none
    | some k =>
      if k.pc = .waiting ∧ s.idle = true then some { s with lookups := s.lookups.set l { k with pc := .passed } }
      else none
  | .timeout l =>
    match s.lookups[l]? with
    | none => none
    | some k =>
      if k.pc = .waiting ∧ cfg.vectorWaitTimeout = true then
        some { s with lookups := s.lookups.set l { k with pc := .timedOut } }
      else none
  | .workerCheck =>
    if s.worker = .checking then some { s with worker := if s.stop then .exited else .getting } else none
  | .workerGet =>
    if s.worker = .getting then
      match s.queue with
      | [] => some { s with worker := .checking }
      | _ :: _ => (s.take .worker).map fun t => { t.2 with worker := .running t.1 }
    else none
  | .shutdown =>
    if s.shutdown = .notCalled then
      let s := { s with returnedBefore := s.returnedCalls }
      if cfg.asyncSave then some { s with stop := true, shutdown := .joining }
      else some { s with shutdown := .returned }
    else none
  | .join =>
    if s.shutdown = .joining ∧ s.worker = .exited then
      some { s with shutdown := if cfg.flushOnShutdown then .flushing else .returned }
    else none
  | .joinTimeout =>
    if s.shutdown = .joining ∧ s.worker ≠ .exited then some { s with shutdown := .returned } else none
  | .flushGet =>
    if s.shutdown = .flushing then
      match s.queue with
      | [] => some { s with shutdown := .returned }
      | _ :: _ => (s.take .flush).map fun t => { t.2 with shutdown := .running t.1 }
    else none

end CacheService

end CacheSeek.Service
