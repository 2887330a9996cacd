import CacheSeek.Prefix.Pipeline
import CacheSeek.Stores.TensorStore

namespace CacheSeek.Prefix
open CacheSeek.Lib CacheSeek.Stores NamespaceForest

/-- The same backing store with every state it has been in after a write, oldest first. -/
def recorded {γ τ : Type} (B : TensorStore γ τ) : TensorStore (γ × List γ) τ where
  putTensor b key t := (B.putTensor b.1 key t, b.2 ++ [B.putTensor b.1 key t])
  getTensor b := B.getTensor b.1
  put b key raw := (B.put b.1 key raw, b.2 ++ [B.put b.1 key raw])
  get b := B.get b.1

/-- `__len__`: how many worlds are known. -/
def NamespaceForest.len (f : NamespaceForest) : Nat := f.namespaces.values.length

/-- One process after another over one backing store and one snapshot file. -/
structure Host (γ : Type) where
  forest : NamespaceForest
  store : TensorStoreTier γ
  snapshot : Option String := none

/-- What happens to a host. A binding flushes the index; the process is killed in a
session after some of its writes, or between sessions. -/
inductive Happening (C : Type) where
  | visit (v : Visit C)
  | flush
  | kill (plan : SessionPlan C) (writes : Nat)
  | restart

namespace Host

variable {γ τ N C ρ β : Type} (digest : Bytes → Bytes) (B : TensorStore γ τ) (spec : τ → TensorSpec)
  (torch : Torch N C ρ) (dim : TensorDim τ β) (E : Engine N C τ ρ β)

def reborn (h : Host γ) (ts : γ) : Host γ := { forest := .empty, store := { ts }, snapshot := h.snapshot }

def bound (h : Host γ) : Option (Host γ) :=
  if h.forest.len = 0 then
    match loadForestSnapshot h.snapshot (some h.forest) with
    | some (.ok _, f) => some { h with forest := f }
    | _ => none
  else some h

/-- The backing store after the first `writes` writes of a session. -/
def killed (h : Host γ) (plan : SessionPlan C) (writes : Nat) : γ :=
  let s : TensorStoreTier (γ × List γ) := { specs := h.store.specs, ts := (h.store.ts, [h.store.ts]) }
  let b := (runSession digest (tensorStoreOver (recorded B) spec) torch dim E plan h.forest s).2
  b.store.ts.2[writes]?.getD b.store.ts.1

def happen (h : Host γ) : Happening C → Option (Host γ)
  | .visit (.session plan) => h.bound.map fun h =>
    let (f, s) := Prefix.visit digest (tensorStoreOver B spec) torch dim E (h.forest, h.store) (.session plan)
    { h with forest := f, store := s }
  | .visit (.evict n) =>
    let (f, s) := Prefix.visit digest (tensorStoreOver B spec) torch dim E (h.forest, h.store) (.evict n)
    some { h with forest := f, store := s }
  | .flush => h.bound.map fun h => { h with snapshot := some h.forest.saveForestSnapshot }
  | .kill plan writes => h.bound.map fun h => h.reborn (h.killed digest B spec torch dim E plan writes)
  | .restart => some (h.reborn h.store.ts)

def run (h : Host γ) : List (Happening C) → Option (Host γ)
  | [] => some h
  | x :: xs => (h.happen digest B spec torch dim E x).bind fun h => run h xs

def session (h : Host γ) (plan : SessionPlan C) :
    Option (Except PyError (List τ) × Bound (TensorStoreTier γ) N C τ ρ β) :=
  h.bound.map fun h => runSession digest (tensorStoreOver B spec) torch dim E plan h.forest h.store

end Host

end CacheSeek.Prefix
