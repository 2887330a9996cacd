import CacheSeek.Lib.Dict
import CacheSeek.Lib.Text
import CacheSeek.Prefix.Keys
import Mathlib.Data.Rat.Defs
import Mathlib.Algebra.GroupWithZero.Nat

namespace CacheSeek.Approximate
open CacheSeek.Lib CacheSeek.Prefix

/-- An exception: its type's name and its text. -/
structure Failure where
  errType : String
  err : String
  deriving DecidableEq, Repr

inductive LatentValue (T : Type) where
  | none
  | tensor (t : T)
  | bytes (b : Bytes)
  | other (typeName : String)
  deriving DecidableEq

def LatentValue.typeName {T : Type} : LatentValue T → String
  | .none => "NoneType"
  | .tensor _ => "Tensor"
  | .bytes _ => "bytes"
  | .other name => name

/-- `torch.save`, `torch.load` and the size of a tensor. -/
structure TorchIO (T : Type) where
  save : T → Bytes
  load : Bytes → Except Failure T
  sizeBytes : T → Nat

def TorchIO.Lawful {T : Type} (io : TorchIO T) : Prop := ∀ t, io.load (io.save t) = .ok t

/-- `str(n)`. -/
def pyInt (n : Int) : String := String.ofList (Json.dumpInt n)

/-- `str([...])` of a list of ints. -/
def pyInts (ns : List Int) : String := "[" ++ ", ".intercalate (ns.map pyInt) ++ "]"

/-- `f"{cache_id}_step{int(step)}"`. -/
def kvKey (cacheId : String) (step : Int) : String := cacheId ++ "_step" ++ pyInt step

/-- `int(kv_key.rsplit("_step", 1)[-1])`. -/
def stepOfKey (key : String) : Option Int := readInt (rsplitLast "_step".toList key.toList)

structure VideoApproxPartialSpec where
  steps : List Int
  deriving DecidableEq, Repr

def VideoApproxPartialSpec.single (step : Int) : VideoApproxPartialSpec := ⟨[step]⟩

structure VideoApproxPayload (T : Type) where
  cacheId : String
  stepToLatents : Dict Int (LatentValue T)
  schemaVersion : String := "video_approx_v1"

namespace VideoApproxPayload

variable {T : Type} (io : TorchIO T)

def estimatedSizeBytes (p : VideoApproxPayload T) : Nat :=
  (p.stepToLatents.values.map fun
    | .tensor t => io.sizeBytes t
    | .bytes b => b.length
    | _ => 0).sum

def valueBytes (step : Int) : LatentValue T → Except Failure Bytes
  | .tensor t => .ok (io.save t)
  | .bytes b => .ok b
  | value => .error ⟨"TypeError", "VideoApproxPayload.step_to_latents value must be Tensor or bytes; " ++
      "got step=" ++ pyInt step ++ " type=" ++ value.typeName⟩

/-- The loop of `to_kv_entries`: what it yields and how it ends. -/
def kvEntries (cacheId : String) :
    List (Int × LatentValue T) → List (String × Bytes) × Except Failure Unit
  | [] => ([], .ok ())
  | (step, value) :: entries =>
    match valueBytes io step value with
    | .error exc => ([], .error exc)
    | .ok blob =>
      let (rest, res) := kvEntries cacheId entries
      ((kvKey cacheId step, blob) :: rest, res)

def toKvEntries (p : VideoApproxPayload T) : List (String × Bytes) × Except Failure Unit :=
  kvEntries io p.cacheId p.stepToLatents.entries

/-- `from_kv_loader` with a loader that answers. -/
def fromKvLoader (cacheId : String) (kvLoader : String → Option Bytes) (spec : VideoApproxPartialSpec) :
    VideoApproxPayload T :=
  { cacheId := cacheId
    stepToLatents := spec.steps.foldl (fun loaded step =>
      match kvLoader (kvKey cacheId step) with
      | some data => loaded.set step (.bytes data)
      | none => loaded) ∅ }

/-- `get_latent_at_step`; `bytes(value)` takes nothing but bytes here. -/
def getLatentAtStep (p : VideoApproxPayload T) (step : Int) : Except Failure T :=
  match p.stepToLatents.get? step with
  | none => .error ⟨"KeyError", "step " ++ pyInt step ++ " not in payload (have " ++
      pyInts (p.stepToLatents.keys.insertionSort (· ≤ ·)) ++ ")"⟩
  | some (.tensor t) => .ok t
  | some (.bytes b) => io.load b
  | some value => .error ⟨"TypeError", "cannot convert '" ++ value.typeName ++ "' object to bytes"⟩

end VideoApproxPayload

theorem stepOfKey_kvKey (cacheId : String) (step : Int) : stepOfKey (kvKey cacheId step) = some step := by
  have hsep : "_step".toList = '_' :: ['s', 't', 'e', 'p'] := rfl
  have hno : '_' ∉ Json.dumpInt step := by
    intro h
    rcases Json.dumpInt_chars h with h | h
    · simp at h
    · cases h
  have hkey : (kvKey cacheId step).toList =
      cacheId.toList ++ ('_' :: ['s', 't', 'e', 'p'] ++ Json.dumpInt step) := by
    simp [kvKey, pyInt]
  rw [stepOfKey, hkey, hsep, rsplitLast_append (by decide) _ hno, readInt_dumpInt]

/-- A key belongs to one cache id and one step. -/
theorem kvKey_inj {cacheId cacheId' : String} {step step' : Int}
    (h : kvKey cacheId step = kvKey cacheId' step') : cacheId = cacheId' ∧ step = step' := by
  have hstep : step = step' := by
    have := congrArg stepOfKey h
    rwa [stepOfKey_kvKey, stepOfKey_kvKey, Option.some.injEq] at this
  subst hstep
  refine ⟨?_, rfl⟩
  have hlist := congrArg String.toList h
  simp only [kvKey, String.toList_append] at hlist
  exact String.toList_inj.mp (List.append_cancel_right (List.append_cancel_right hlist))

end CacheSeek.Approximate
