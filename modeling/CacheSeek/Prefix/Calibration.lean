import CacheSeek.Prefix.Binding

namespace CacheSeek.Prefix

/-- `k * R > fixed + min(k, W) * F`: reusing `k` chunks costs less than making them. -/
def PaysOff (fetchPerChunk recomputePerChunk fixedOverhead : Rat) (windowChunks : Int) (k : Nat) : Prop :=
  k * recomputePerChunk > fixedOverhead + (min (k : Int) windowChunks : Int) * fetchPerChunk

instance (fetchPerChunk recomputePerChunk fixedOverhead : Rat) (windowChunks : Int) (k : Nat) :
    Decidable (PaysOff fetchPerChunk recomputePerChunk fixedOverhead windowChunks k) :=
  inferInstanceAs (Decidable (_ > _))

/-- `calibrate_break_even_k`: the loop returns the first length that pays off, and one past its end
if it finds none. -/
def calibrateBreakEvenK (fetchPerChunk recomputePerChunk : Rat) (windowChunks : Int) (fixedOverhead : Rat)
    (maxK : Nat := 256) : Int :=
  match (List.range' 1 maxK).find? fun k =>
      decide (PaysOff fetchPerChunk recomputePerChunk fixedOverhead windowChunks k) with
  | some k => k
  | none => maxK + 1

def WorldKVConfig.Admits (cfg : WorldKVConfig) (matchedLen : Nat) : Prop :=
  matchedLen ≠ 0 ∧ cfg.breakEvenK ≤ matchedLen

instance (cfg : WorldKVConfig) (matchedLen : Nat) : Decidable (cfg.Admits matchedLen) :=
  inferInstanceAs (Decidable (_ ∧ _))

section
variable {σ ω P L : Type} (S : KVTierStore σ P L) (W : RollingWindow ω P) (cfg : WorldKVConfig)

def pastGate (now : Rat) (f : NamespaceForest) (s : σ) (ns : Namespace) (n : NodeId) (matchedLen : Nat) (w : ω) :
    Except PyError FastForwardResult × NamespaceForest × σ × ω :=
  match materialize S W cfg now f s n w with
  | (.error e, f, s, w) => (.error e, f, s, w)
  | (.ok false, f, s, w) => (.ok ⟨0, some ns.root, some ns⟩, f, s, w)
  | (.ok true, f, s, w) => (.ok ⟨matchedLen, some n, some ns⟩, f, s, w)

end

end CacheSeek.Prefix
