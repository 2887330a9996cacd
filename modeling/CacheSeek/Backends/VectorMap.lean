import CacheSeek.Backends.Faiss

namespace CacheSeek.Backends
open CacheSeek.Lib

variable {V P : Type} (cfg : FaissConfig V P)

/-- A collection: the latest vector and payload of each point. -/
abbrev Points (V P : Type) := String → Option (V × P)

def FaissConfig.closer (q : V) (x y : String × V × P) : Prop :=
  cfg.nearer (cfg.space.dist (cfg.prepare q) (cfg.prepare x.2.1))
    (cfg.space.dist (cfg.prepare q) (cfg.prepare y.2.1))

def pointResult (q : V) (scoreThreshold : Option Rat) (x : String × V × P) :
    Option (VectorSearchResult P) :=
  let similarity := cfg.similarity (cfg.space.dist (cfg.prepare q) (cfg.prepare x.2.1))
  if scoreThreshold.any fun t => similarity < t then none
  else some ⟨x.1, similarity, cfg.reader.prompt x.2.2, cfg.reader.savedSteps x.2.2, x.2.2⟩

/-- The answers a search may give: the best `limit` points, without those below the threshold. -/
def PointsAnswer (m : Points V P) (q : V) (limit : Nat) (scoreThreshold : Option Rat)
    (res : List (VectorSearchResult P)) : Prop :=
  ∃ picked, Best (cfg.closer q) limit (fun x => m x.1 = some x.2) picked ∧
    res = picked.filterMap (pointResult cfg q scoreThreshold)

inductive VectorOp (V P : Type) where
  | ensure (collection : String)
  | upsert (collection pointId : String) (vector : V) (payload : P)
  | delete (collection : String) (pointIds : List String)
  | search (collection : String) (vector : V) (limit : Nat) (scoreThreshold : Option Rat)
  | reopen

def VectorOp.Json : VectorOp V P → Prop
  | .upsert _ _ _ payload => cfg.reader.dumps payload = true
  | _ => True

/-- An operation whose saves stop where `stops` says. -/
def FaissStore.apply (stops : Option SaveStep × Option SaveStep) (st : FaissStore V P) :
    VectorOp V P → FaissStore V P
  | .ensure c => (ensureCollection cfg stops.1 st c cfg.vectorDim).2
  | .upsert c p v payload => (upsert cfg stops st c p v payload).2
  | .delete c ps => (Backends.delete cfg stops.2 st c ps).2
  | .search c v limit t => (search cfg st c v limit t []).2
  | .reopen => { st with memory := {} }

def FaissStore.step (st : FaissStore V P) (op : VectorOp V P) : FaissStore V P :=
  st.apply cfg (none, none) op

def FaissStore.crash (stops : Option SaveStep × Option SaveStep) (st : FaissStore V P)
    (op : VectorOp V P) : FaissStore V P :=
  { st.apply cfg stops op with memory := {} }

def loadedIds (st : FaissStore V P) (c : String) : Dict String Int :=
  match loadIndex cfg st c with
  | (.ok (some _), st) => ((st.memory.metadata.get? c).getD {}).idMap
  | _ => ∅

/-- The operation comes to `_remove_ids`. -/
def FaissStore.Removes (st : FaissStore V P) : VectorOp V P → Prop
  | .upsert c p v _ => cfg.space.dim v = cfg.vectorDim ∧ (loadedIds cfg st c).get? p ≠ none
  | .delete c ps => ∃ p ∈ ps, (loadedIds cfg st c).get? p ≠ none
  | _ => False

/-- It raises there, since FAISS does not take the selector. -/
def FaissStore.Refused (st : FaissStore V P) (op : VectorOp V P) : Prop :=
  cfg.selectorTakesArrays = false ∧ st.Removes cfg op

def Unrefused : FaissStore V P → List (VectorOp V P) → Prop
  | _, [] => True
  | st, op :: ops => ¬ st.Refused cfg op ∧ Unrefused (st.step cfg op) ops

def absStep (a : String → Points V P) : VectorOp V P → String → Points V P
  | .upsert c p v payload =>
    if cfg.space.dim v = cfg.vectorDim ∧ cfg.supported = true then
      Function.update a c (Function.update (a c) p (some (v, payload)))
    else a
  | .delete c ps => Function.update a c fun p => if p ∈ ps then none else a c p
  | _ => a

def Answers (st : FaissStore V P) (c : String) (q : V) (limit : Nat) (scoreThreshold : Option Rat)
    (res : List (VectorSearchResult P)) : Prop :=
  ∃ hits, (∀ ix, (loadIndex cfg st c).1 = .ok (some ix) → Hits cfg (cfg.prepare q) limit ix hits) ∧
    (search cfg st c q limit scoreThreshold hits).1 = .ok res

/-- Whatever is done next and not refused, the store answers as the collections `a` do. -/
def Follows (st : FaissStore V P) (a : String → Points V P) : Prop :=
  ∀ ops : List (VectorOp V P), (∀ op ∈ ops, op.Json cfg) → Unrefused cfg st ops →
    ∀ c q limit t, 0 < limit → cfg.space.dim q = cfg.vectorDim → ∀ res,
      (Answers cfg (ops.foldl (FaissStore.step cfg) st) c q limit t res ↔
        PointsAnswer cfg (ops.foldl (absStep cfg) a c) q limit t res)

end CacheSeek.Backends
