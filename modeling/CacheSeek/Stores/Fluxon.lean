import CacheSeek.Approximate.Payload
import CacheSeek.Stores.LocalFile

namespace CacheSeek.Stores
open CacheSeek.Lib CacheSeek.Prefix CacheSeek.Approximate

/-- What a call into `fluxon_py` may come back with; `Failure` stands for an exception and for an error
object, with the name of its type and its text. -/
inductive NativeResult (α : Type) where
  | ok (value : Option α)
  | err (error : Failure)

/-- A native call raises, returns None or returns a Result. -/
inductive NativeCall (α : Type) where
  | raises (exc : Failure)
  | returnsNone
  | returns (res : NativeResult α)

inductive FieldValue (T : Type) where
  | bytes (b : Bytes)
  | dlpack (t : T)
  | other (typeName : String)

inductive MemPayload (T : Type) where
  | dict (v : FieldValue T)
  | other (typeName : String)

/-- What a resolved future holds: a holder with what its `access` comes back
with, bytes, or an object without `access`. -/
inductive ValueObject (T : Type) where
  | bytes (b : Bytes)
  | holder (access : NativeCall (MemPayload T))
  | other (typeName : String)

/-- What `store.get` comes back with: a future, which its `wait` resolves. -/
abbrev GetReply (T : Type) := NativeCall (NativeCall (ValueObject T))

abbrev PutReply := NativeCall (NativeCall Bool)

abbrev RemoveReply := NativeCall Bool

/-- How many Results were received, and which of them were consumed by `unwrap`
or `unwrap_error`, in order. -/
structure Uses where
  received : Nat := 0
  consumed : List Nat := []

/-- No Result is left to raise when it is destroyed. -/
def Uses.AllConsumed (u : Uses) : Prop := ∀ i < u.received, i ∈ u.consumed

structure Received (α : Type) where
  id : Nat
  res : NativeResult α

/-- A method of the adapter: it may raise, and it uses the Results it receives. -/
abbrev Method (α : Type) := Uses → Except Failure α × Uses

namespace Method

variable {α β : Type}

def pure (a : α) : Method α := fun u => (.ok a, u)

def throw (exc : Failure) : Method α := fun u => (.error exc, u)

def bind (x : Method α) (f : α → Method β) : Method β := fun u =>
  match x u with
  | (.error exc, u) => (.error exc, u)
  | (.ok a, u) => f a u

/-- `except Exception as exc: raise RuntimeError(...) from exc`. -/
def wrap (context : String) (x : Method α) : Method α := fun u =>
  match x u with
  | (.error exc, u) => (.error ⟨"RuntimeError", context ++ exc.err⟩, u)
  | (.ok a, u) => (.ok a, u)

instance : Monad Method where
  pure := pure
  bind := bind

def receive : NativeCall α → Method (Option (Received α))
  | .raises exc => throw exc
  | .returnsNone => pure none
  | .returns res => fun u => (.ok (some ⟨u.received, res⟩), { u with received := u.received + 1 })

def consume (id : Nat) : Method Unit := fun u => (.ok (), { u with consumed := u.consumed ++ [id] })

end Method

def unwrapResultOk {α : Type} : Option (Received α) → Method (Option α)
  | none => Method.pure none
  | some ⟨_, .err _⟩ => Method.pure none
  | some ⟨id, .ok value⟩ => do
    Method.consume id
    Method.pure value

def unwrapResultErr {α : Type} (op : String) : Option (Received α) → Method (Option Failure)
  | none => Method.pure (some ⟨"RuntimeError", op ++ " returned None"⟩)
  | some ⟨id, .ok _⟩ => do
    Method.consume id
    Method.pure none
  | some ⟨id, .err error⟩ => do
    Method.consume id
    Method.pure (some error)

/-- What the adapter does with every native call but `access`: the Result is
unwrapped, and where there is no value its error is taken out. -/
def settle {α β : Type} (op : String) (call : NativeCall α) (onErr : Option Failure → Method β)
    (onOk : α → Method β) : Method β := do
  let res ← Method.receive call
  match ← unwrapResultOk res with
  | none =>
    let err ← unwrapResultErr op res
    onErr err
  | some value => onOk value

def isKeyNotFound : Option Failure → Bool
  | none => false
  | some err => err.errType = "KeyNotFoundError" || err.errType = "ChanKeyNotFoundError"

def errText (err : Option Failure) : String :=
  "err_type=" ++ (err.map Failure.errType).getD "NoneType" ++ " err=" ++ (err.map Failure.err).getD "None"

/-- `RuntimeError(err)`. -/
def runtimeError (err : Option Failure) : Failure := ⟨"RuntimeError", (err.map Failure.err).getD "None"⟩

def unlessMissing {β : Type} (err : Option Failure) (missing : β) (exc : Failure) : Method β :=
  if isKeyNotFound err then Method.pure missing else Method.throw exc

/-- `d_res.is_ok()` and what follows on a Result of `access`. -/
def settleAccess {α β : Type} (call : NativeCall α) (onErr : Failure → Method β) (onOk : Option α → Method β) :
    Method β := do
  match ← Method.receive call with
  | none => Method.throw ⟨"AttributeError", "'NoneType' object has no attribute 'is_ok'"⟩
  | some ⟨id, .err error⟩ => do
    Method.consume id
    onErr error
  | some ⟨id, .ok d⟩ => do
    Method.consume id
    onOk d

namespace FluxonKVStore

variable {S T : Type} (repr : String → String)

def init (configPath : Option String) (store : Option S) (importLayer : Except Failure Unit)
    (newStore : String → NativeCall S) : Method S :=
  match store with
  | some store => Method.pure store
  | none =>
    match configPath.filter (· ≠ "") with
    | none => Method.throw ⟨"ValueError", "FluxonKVStore requires either config_path or an injected store."⟩
    | some path =>
      match importLayer with
      | .error exc => Method.throw exc
      | .ok _ =>
        settle "new_store" (newStore path)
          (fun err => Method.throw
            ⟨"RuntimeError", "FluxonKVStore init failed config_path=" ++ repr path ++ " " ++ errText err⟩)
          Method.pure

def fieldTypeName : FieldValue T → String
  | .bytes _ => "bytes"
  | .dlpack _ => "Tensor"
  | .other typeName => typeName

def payloadBytes (key : String) : Option (MemPayload T) → Method Bytes
  | some (.dict (.bytes b)) => Method.pure b
  | some (.dict v) => Method.throw ⟨"TypeError",
      "Fluxon MemHolder.access payload does not contain bytes field field='v' value_type=" ++
        fieldTypeName v ++ " key=" ++ repr key⟩
  | some (.other typeName) => Method.throw ⟨"TypeError",
      "Fluxon MemHolder.access returned non-dict payload type=" ++ typeName ++ " key=" ++ repr key⟩
  | none => Method.throw ⟨"TypeError",
      "Fluxon MemHolder.access returned non-dict payload type=NoneType key=" ++ repr key⟩

/-- An exception of `access` itself gets the context of the key. -/
def withContext (key : String) {α : Type} : NativeCall α → NativeCall α
  | .raises exc => .raises ⟨"RuntimeError", "Fluxon MemHolder.access failed key=" ++ repr key ++ ": " ++ exc.err⟩
  | call => call

/-- `_extract_bytes_from_value`. -/
def extractBytes (key : String) : ValueObject T → Method Bytes
  | .bytes b => Method.pure b
  | .other typeName => Method.throw ⟨"TypeError", "FluxonKV value object is missing callable access() type=" ++
      typeName ++ " key=" ++ repr key⟩
  | .holder access =>
    settleAccess (withContext repr key access)
      (fun error => Method.throw ⟨"RuntimeError", "Fluxon MemHolder.access returned error " ++
        errText (some error) ++ " key=" ++ repr key⟩)
      (payloadBytes repr key)

def get (key : String) (reply : GetReply T) : Method (Option Bytes) :=
  Method.wrap ("FluxonKV.get failed key=" ++ repr key ++ ": ") <|
    settle "get" reply
      (fun err => unlessMissing err none
        ⟨"RuntimeError", "FluxonKV.get backend error key=" ++ repr key ++ " " ++ errText err⟩)
      fun fut =>
        settle "get.wait" fut
          (fun err => unlessMissing err none
            ⟨"RuntimeError", "FluxonKV.get.wait backend error key=" ++ repr key ++ " " ++ errText err⟩)
          fun value => Method.bind (extractBytes repr key value) fun b => Method.pure (some b)

/-- The common body of `put` and `put_tensor`; the Boolean is not looked at. -/
def putAs (op : String) (reply : PutReply) : Method Unit :=
  settle op reply (fun err => Method.throw (runtimeError err)) fun fut =>
    settle (op ++ ".wait") fut (fun err => Method.throw (runtimeError err)) fun _ => Method.pure ()

def put (key : String) (reply : PutReply) : Method Unit :=
  Method.wrap ("FluxonKV.put failed key=" ++ repr key ++ ": ") (putAs "put" reply)

def putTensor (key : String) (reply : PutReply) : Method Unit :=
  Method.wrap ("FluxonKV.put_tensor failed key=" ++ repr key ++ ": ") (putAs "put_tensor" reply)

def remove (key : String) (reply : RemoveReply) : Method Unit :=
  Method.wrap ("FluxonKV.remove failed key=" ++ repr key ++ ": ") <|
    settle "remove" reply (fun err => unlessMissing err () (runtimeError err)) fun _ => Method.pure ()

/-- What `get_tensor` makes of the field: a clone of a tensor, or `frombuffer`
of bytes under the shape and dtype that the caller gives. -/
def tensorOf (frombuffer : Bytes → Except Failure T) : FieldValue T → Method T
  | .dlpack t => Method.pure t
  | .bytes b =>
    match frombuffer b with
    | .error exc => Method.throw exc
    | .ok t => Method.pure t
  | .other typeName => Method.throw
      ⟨"TypeError", "Fluxon get_tensor payload field 'v' is neither dlpack nor bytes (type=" ++ typeName ++ ")"⟩

def payloadTensor (frombuffer : Bytes → Except Failure T) : Option (MemPayload T) → Method (Option T)
  | some (.dict v) => Method.bind (tensorOf frombuffer v) fun t => Method.pure (some t)
  | some (.other typeName) =>
    Method.throw ⟨"AttributeError", "'" ++ typeName ++ "' object has no attribute 'get'"⟩
  | none => Method.throw ⟨"AttributeError", "'NoneType' object has no attribute 'get'"⟩

/-- `get_tensor` reads through `access` only. -/
def valueTensor (frombuffer : Bytes → Except Failure T) : ValueObject T → Method (Option T)
  | .bytes _ => Method.throw ⟨"AttributeError", "'bytes' object has no attribute 'access'"⟩
  | .other typeName => Method.throw ⟨"AttributeError", "'" ++ typeName ++ "' object has no attribute 'access'"⟩
  | .holder access =>
    settleAccess access (fun error => Method.throw ⟨"RuntimeError", errText (some error)⟩)
      (payloadTensor frombuffer)

def getTensor (frombuffer : Bytes → Except Failure T) (key : String) (reply : GetReply T) : Method (Option T) :=
  Method.wrap ("FluxonKV.get_tensor failed key=" ++ repr key ++ ": ") <|
    settle "get_tensor" reply (fun err => unlessMissing err none (runtimeError err)) fun fut =>
      settle "get_tensor.wait" fut (fun err => unlessMissing err none (runtimeError err))
        (valueTensor frombuffer)

end FluxonKVStore

end CacheSeek.Stores
