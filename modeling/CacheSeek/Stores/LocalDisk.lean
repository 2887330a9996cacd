import CacheSeek.Lib.Disk
import CacheSeek.Stores.JsonFile
import CacheSeek.Stores.TensorStore

namespace CacheSeek.Stores
open CacheSeek.Lib CacheSeek.Prefix

/-- The raw bytes of a tensor, and a buffer viewed under a dtype and reshaped. -/
structure TorchBytes (τ : Type) where
  spec : τ → TensorSpec
  raw : τ → Bytes
  view : Bytes → TensorSpec → Except PyError τ

/-- Bytes view as the tensor they are of. A buffer of another size does not fit its spec. -/
structure TorchBytes.Lawful {τ : Type} (T : TorchBytes τ) : Prop where
  view_raw : ∀ t, T.view (T.raw t) (T.spec t) = .ok t
  view_size : ∀ t b, b.length ≠ (T.raw t).length → ∃ e, T.view b (T.spec t) = .error e

namespace LocalDisk

variable {τ : Type} (sha1 : Bytes → Bytes) (T : TorchBytes τ)

def path (key : String) : String := hex (sha1 (utf8 key)) ++ ".bin"

/-- Bytes that are no text are no JSON either, which the empty text stands for. -/
def text (b : Bytes) : String := (decodeUtf8 b).getD ""

def localDiskTensorStore : TensorStore (Disk UInt8) τ where
  putTensor d key t := d.set (path sha1 key) (T.raw t)
  getTensor d key sp :=
    match d.get? (path sha1 key) with
    | none => .ok none
    | some b => (T.view b sp).map some
  put d key val := d.set (path sha1 key) (utf8 val)
  get d key := (d.get? (path sha1 key)).map text

def putSteps (key : String) (t : τ) : List (FileStep UInt8) :=
  [.write (path sha1 key) (T.raw t), .write (path sha1 (key ++ ":spec")) (utf8 (T.spec t).toText)]

/-- What the adapter is asked for; a crash comes at some step of a put, and a new process after it. -/
inductive DiskOp (τ : Type) where
  | put (key : String) (t : τ)
  | read (key : String)
  | reopen
  | crashPut (key : String) (t : τ) (done : Nat) (torn : Option Nat)

def step (s : TensorStoreTier (Disk UInt8)) : DiskOp τ → TensorStoreTier (Disk UInt8)
  | .put key t => (s.putOne (localDiskTensorStore sha1 T) T.spec key (some t)).2
  | .read key => (s.getOne (localDiskTensorStore sha1 T) key).2
  | .reopen => s.renew
  | .crashPut key t done torn => { ts := crashed s.ts (putSteps sha1 T key t) done torn }

def run (s : TensorStoreTier (Disk UInt8)) (ops : List (DiskOp τ)) : TensorStoreTier (Disk UInt8) :=
  ops.foldl (step sha1 T) s

end LocalDisk

end CacheSeek.Stores
