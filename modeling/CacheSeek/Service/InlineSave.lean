import CacheSeek.Service.Lifecycle

namespace CacheSeek.Service

/-- A strategy's `save`: its effects and the awaits that suspend, up to its end. An await that
`needsLoop` (a sleep, a client's future) raises where no loop is running in the thread, and `failed`
is what the save does then; other awaits only yield. Closed at an await the save does `closed`: its
`finally` blocks, say, after which GeneratorExit leaves it (an end like `returned`). -/
inductive SaveCoroutine (ε : Type) where
  | done (ending : Ending)
  | effect (x : ε) (next : SaveCoroutine ε)
  | await (needsLoop : Bool) (next failed closed : SaveCoroutine ε)

namespace SaveCoroutine

variable {ε : Type}

/-- Where a coroutine stops that is sent `None`: at its end or, closed there, at an await. -/
inductive Sent (ε : Type) where
  | ended (ending : Ending)
  | yielded (closed : SaveCoroutine ε)

/-- `coro.send(None)` in a thread with a running loop or without. -/
def send (running : Bool) : SaveCoroutine ε → List ε × Sent ε
  | done ending => ([], .ended ending)
  | effect x next => (x :: (next.send running).1, (next.send running).2)
  | await needsLoop _ failed closed =>
    if needsLoop && !running then failed.send running else ([], .yielded closed)

/-- `coro.close()`, with what the coroutine does then. If that yields, it is a RuntimeError. -/
def close (running : Bool) (closed : SaveCoroutine ε) : List ε × Ending :=
  match closed.send running with
  | (effects, .ended ending) => (effects, ending)
  | (effects, .yielded _) => (effects, .exception)

def suspends : SaveCoroutine ε → Bool
  | done _ => false
  | effect _ next => next.suspends
  | await _ _ _ _ => true

end SaveCoroutine

end CacheSeek.Service
