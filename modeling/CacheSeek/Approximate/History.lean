import CacheSeek.Approximate.Lookup
import CacheSeek.Approximate.Save

namespace CacheSeek.Approximate
open CacheSeek.Lib CacheSeek.Prefix

variable {T F : Type}

/-- What happens to the stores: a save under a fresh id, a lookup with what the vector store answers
it, or the loss of a latent. -/
inductive Event (T F : Type) where
  | save (cacheId : String) (query : CacheQuery) (outputs : ModelOutputs T F)
  | lookup (query : CacheQuery) (answers : List Candidate)
  | lose (key : String)

variable (S : VideoBasedApproximateCache T F) (faults : Faults)

def World.step (w : World) : Event T F → World
  | .save cacheId query outputs => (Approximate.save S faults cacheId query outputs w).2
  | .lookup query answers => (Approximate.lookup S faults (fun _ _ => answers) query w).2
  | .lose key => { w with stores := { w.stores with kv := w.stores.kv.erase key } }

def World.run (w : World) (es : List (Event T F)) : World := es.foldl (World.step S faults) w

/-- The vector store answers with points it has, and their payloads. It may spell an id with hyphens. -/
def FromStore (s : Stores) (answers : List Candidate) : Prop :=
  ∀ r ∈ answers, ∃ id point, s.vectors.get? id = some point ∧
    normalizeCacheId r.cacheId = normalizeCacheId id ∧ r.prompt = point.payload.prompt ∧
    r.savedSteps = point.payload.savedSteps ∧ r.payload = point.payload

/-- `uuid4().hex` gives an id without hyphens that was not given before. -/
def Fresh (past : List (Event T F)) (cacheId : String) : Prop :=
  '-' ∉ cacheId.toList ∧ ∀ query outputs, .save cacheId query outputs ∉ past

def Event.Possible (past : List (Event T F)) (w : World) : Event T F → Prop
  | .save cacheId _ _ => Fresh past cacheId
  | .lookup _ answers => FromStore w.stores answers
  | .lose _ => True

def History (past : List (Event T F)) (w : World) : List (Event T F) → Prop
  | [] => True
  | e :: es => e.Possible past w ∧ History (past ++ [e]) (w.step S faults e) es

variable {S faults}

theorem history_append {past : List (Event T F)} {w : World} {es es' : List (Event T F)} :
    History S faults past w (es ++ es') ↔
      History S faults past w es ∧ History S faults (past ++ es) (w.run S faults es) es' := by
  induction es generalizing past w with
  | nil =>
    rw [List.append_nil]
    exact ⟨fun h => ⟨True.intro, h⟩, fun h => h.2⟩
  | cons e es ih =>
    have happ : past ++ e :: es = past ++ [e] ++ es := by simp
    simp only [List.cons_append, History, ih, happ, and_assoc]
    rfl

/-- What each event keeps holds after a history. -/
theorem History.invariant {I : List (Event T F) → World → Prop}
    (hstep : ∀ past w e, I past w → e.Possible past w → I (past ++ [e]) (w.step S faults e))
    {past : List (Event T F)} {w : World} {es : List (Event T F)} (h : History S faults past w es)
    (hI : I past w) : I (past ++ es) (w.run S faults es) := by
  induction es generalizing past w with
  | nil =>
    rw [List.append_nil]
    exact hI
  | cons e es ih =>
    obtain ⟨he, hes⟩ := h
    have := ih hes (hstep past w e hI he)
    rwa [List.append_assoc, List.singleton_append] at this

end CacheSeek.Approximate
