import CacheSeek.Lib.MapStore
import CacheSeek.Stores.Fluxon

namespace CacheSeek.Stores
open CacheSeek.Lib CacheSeek.Prefix CacheSeek.Approximate

abbrev InMemoryKVStore := Dict String Bytes

namespace InMemoryKVStore

def get (s : InMemoryKVStore) (key : String) : Option Bytes := s.get? key

def put (s : InMemoryKVStore) (key : String) (value : Bytes) : InMemoryKVStore := s.set key value

def remove (s : InMemoryKVStore) (key : String) : InMemoryKVStore := s.erase key

def listKeys (s : InMemoryKVStore) : List String := s.keys

end InMemoryKVStore

def inMemoryStore : MapStore InMemoryKVStore String Bytes Failure where
  call s
    | .put key value => (.ok none, InMemoryKVStore.put s key value)
    | .get key => (.ok (InMemoryKVStore.get s key), s)
    | .remove key => (.ok none, InMemoryKVStore.remove s key)

def localFileStore (digest : Bytes → Bytes) : MapStore LocalFileKVStore String Bytes Failure where
  call s
    | .put key value => (.ok none, s.put digest key value)
    | .get key => (.ok (s.get key), s)
    | .remove key => (.ok none, s.remove key)

def reopen (_ : Unit) (s : LocalFileKVStore) : Except Failure LocalFileKVStore :=
  (LocalFileKVStore.init s.disk).mapError fun e => ⟨"ValueError", e.text LocalFileKVStore.indexFile⟩

structure FluxonApi (σ T : Type) where
  get : σ → String → GetReply T × σ
  put : σ → String → FieldValue T → PutReply × σ
  remove : σ → String → RemoveReply × σ

def fluxonStore {σ T : Type} (api : FluxonApi σ T) (repr : String → String) :
    MapStore σ String Bytes Failure where
  call s
    | .put key value =>
      let (reply, s) := api.put s key (.bytes value)
      ((FluxonKVStore.put repr key reply {}).1.map fun _ => none, s)
    | .get key =>
      let (reply, s) := api.get s key
      ((FluxonKVStore.get repr key reply {}).1, s)
    | .remove key =>
      let (reply, s) := api.remove s key
      ((FluxonKVStore.remove repr key reply {}).1.map fun _ => none, s)

end CacheSeek.Stores
